import TuixOS.Screen
import TuixOS.BootPool
import TuixOS.Lib.Grid

/-!
# What stands on the screen

The video memory is a grid of 25 rows and 80 columns of a character and its attribute. `put_char` and
`kprint` write cells of it and no other byte, and what falls outside the grid is dropped, so that
`kprintf` shows the first 127 characters of its text as far as they are in the row
(`kprintf_screen`). `clear_screen` takes the address `0xB8000` as it is: it works with `entrypgdir`
and is a page fault with a directory of `setup_kvm` (`clear_screen_boot_only`).
-/

namespace TuixOS

open Lib

namespace Screen

open Serial (chr)

/-! ## The grid -/

/-- `P2V((char *)0xB8000)` -/
def video : Addr := p2v 0xB8000

def cellAddr (i : Fin 25) (j : Fin 80) : Addr := video + BitVec.ofNat 32 ((i * 80 + j) * 2)

/-- Each character with its attribute. -/
def grid (m : Mem) : Grid 25 80 (Byte × Byte) := fun i j => (m (cellAddr i j), m (cellAddr i j + 1))

/-- The yellow of `put_char`. -/
def yellow (text : List Byte) : List (Byte × Byte) := text.map fun c => (c, 0x0E)

/-- The cell that `clear_screen` leaves. -/
def blank : Byte × Byte := (chr ' ', 0x07)

def OnScreen (x : Addr) : Prop := (x - video).toNat < 4000

def SameOffScreen (m m' : Mem) : Prop := ∀ x, ¬OnScreen x → m' x = m x

section Cells
variable {m m' m'' : Mem} {i i' : Fin 25} {j j' : Fin 80} {x : Addr}

theorem cellAddr_toNat (i : Fin 25) (j : Fin 80) :
    (cellAddr i j).toNat = 0x800B8000 + (i * 80 + j) * 2 := by
  have hi := i.isLt
  have hj := j.isLt
  have hvideo : video.toNat = 0x800B8000 := by decide
  rw [cellAddr, BitVec.toNat_add, BitVec.toNat_ofNat, hvideo]
  omega

theorem cellAddr_succ_toNat (i : Fin 25) (j : Fin 80) :
    (cellAddr i j + 1).toNat = 0x800B8000 + (i * 80 + j) * 2 + 1 := by
  have hi := i.isLt
  have hj := j.isLt
  have hone : (1 : Addr).toNat = 1 := rfl
  rw [BitVec.toNat_add, cellAddr_toNat, hone]
  omega

theorem onScreen_iff : OnScreen x ↔ 0x800B8000 ≤ x.toNat ∧ x.toNat < 0x800B8000 + 4000 := by
  have hx := x.isLt
  have hvideo : video.toNat = 0x800B8000 := by decide
  rw [OnScreen, BitVec.toNat_sub, hvideo]
  omega

theorem onScreen_cell (i : Fin 25) (j : Fin 80) : OnScreen (cellAddr i j) ∧ OnScreen (cellAddr i j + 1) := by
  have hi := i.isLt
  have hj := j.isLt
  rw [onScreen_iff, onScreen_iff, cellAddr_toNat, cellAddr_succ_toNat]
  omega

theorem SameOffScreen.trans (h : SameOffScreen m m') (h' : SameOffScreen m' m'') : SameOffScreen m m'' :=
  fun x hx => (h' x hx).trans (h x hx)

/-- A store to a cell. -/
theorem grid_store (c attr : Byte) :
    grid (store8 (store8 m (cellAddr i j) c) (cellAddr i j + 1) attr) =
      (grid m).put (i : Int) (j : Int) (c, attr) := by
  funext i' j'
  have haddr := cellAddr_toNat i j
  have hsucc := cellAddr_succ_toNat i j
  have haddr' := cellAddr_toNat i' j'
  have hsucc' := cellAddr_succ_toNat i' j'
  have hj := j.isLt
  have hj' := j'.isLt
  have hodd : cellAddr i' j' ≠ cellAddr i j + 1 := by
    intro h
    have := congrArg BitVec.toNat h
    omega
  have heven : cellAddr i' j' + 1 ≠ cellAddr i j := by
    intro h
    have := congrArg BitVec.toNat h
    omega
  simp only [grid, Grid.put]
  rw [store8_ne _ _ _ _ hodd]
  by_cases hij : i' = i ∧ j' = j
  · obtain ⟨rfl, rfl⟩ := hij
    rw [if_pos ⟨rfl, rfl⟩, store8_same, store8_same]
  · have hne : cellAddr i' j' ≠ cellAddr i j ∧ cellAddr i' j' + 1 ≠ cellAddr i j + 1 := by
      constructor
      all_goals
        intro h
        have := congrArg BitVec.toNat h
        exact hij ⟨Fin.ext (by omega), Fin.ext (by omega)⟩
    rw [if_neg fun h => hij ⟨Fin.ext (by omega), Fin.ext (by omega)⟩, store8_ne _ _ _ _ hne.1,
      store8_ne _ _ _ _ hne.2, store8_ne _ _ _ _ heven]

theorem sameOffScreen_store (c attr : Byte) :
    SameOffScreen m (store8 (store8 m (cellAddr i j) c) (cellAddr i j + 1) attr) := by
  intro x hx
  obtain ⟨hcell, hsucc⟩ := onScreen_cell i j
  rw [store8_ne, store8_ne]
  · rintro rfl
    exact hx hcell
  · rintro rfl
    exact hx hsucc

end Cells

/-! ## `put_char`, `kprint` and `kprintf` -/

section Print
variable {m : Mem} {col : Int}

theorem putChar_grid (c : Byte) (row col : Int) (m : Mem) :
    grid (putChar c row col m) = (grid m).put row col (c, 0x0E) ∧ SameOffScreen m (putChar c row col m) := by
  unfold putChar
  split_ifs with hout
  · refine ⟨(Grid.put_outside fun i j hij => ?_).symm, fun _ _ => rfl⟩
    have hi := i.isLt
    have hj := j.isLt
    omega
  · obtain ⟨i, rfl⟩ : ∃ i : Fin 25, (i : Int) = row :=
      ⟨⟨row.toNat, by omega⟩, Int.toNat_of_nonneg (by omega)⟩
    obtain ⟨j, rfl⟩ : ∃ j : Fin 80, (j : Int) = col :=
      ⟨⟨col.toNat, by omega⟩, Int.toNat_of_nonneg (by omega)⟩
    have hcell : p2v 0xB8000 + BitVec.ofInt 32 (((i : Int) * 80 + (j : Int)) * 2) = cellAddr i j := by
      have hcast : ((i : Int) * 80 + (j : Int)) * 2 = (((i : Nat) * 80 + (j : Nat)) * 2 : Nat) := by
        push_cast
        rfl
      rw [hcast, BitVec.ofInt_natCast, cellAddr, video]
    simp only [hcell]
    exact ⟨grid_store c 0x0E, sameOffScreen_store c 0x0E⟩

theorem kprintLoop_grid (row col : Int) (rest : List Byte) : ∀ {text : List Byte} (n : Int) (m : Mem),
    (∀ c ∈ text, c ≠ 0) → col + n + text.length ≤ intMax + 1 →
      ∃ m', kprintLoop row col (text ++ 0 :: rest) n m = .ok m' ∧
        grid m' = (grid m).write row (col + n) (yellow text) ∧ SameOffScreen m m' := by
  intro text
  induction text with
  | nil =>
    intro n m _ _
    exact ⟨m, if_neg (not_not.mpr rfl), Grid.write_nil.symm, fun _ _ => rfl⟩
  | cons c text ih =>
    intro n m hne hfit
    rw [List.length_cons] at hfit
    push_cast at hfit
    obtain ⟨hput, hsame⟩ := putChar_grid c row (col + n) m
    obtain ⟨m', hloop, hgrid, hsame'⟩ := ih (n + 1) (putChar c row (col + n) m)
      (fun d hd => hne d (List.mem_cons_of_mem c hd)) (by omega)
    refine ⟨m', ?_, ?_, hsame.trans hsame'⟩
    · rw [List.cons_append, kprintLoop, if_pos (hne c List.mem_cons_self), if_neg (by omega)]
      exact hloop
    · have hyellow : yellow (c :: text) = (c, 0x0E) :: yellow text := List.map_cons ..
      rw [hgrid, hput, hyellow, Grid.write_cons, Int.add_assoc]

theorem kprint_grid {text : List Byte} (hne : ∀ c ∈ text, c ≠ 0) (hfit : col + text.length ≤ intMax + 1)
    (row : Int) (rest : List Byte) (m : Mem) : ∃ m', kprint row col (text ++ 0 :: rest) m = .ok m' ∧
      grid m' = (grid m).write row col (yellow text) ∧ SameOffScreen m m' := by
  obtain ⟨m', hloop, hgrid, hsame⟩ := kprintLoop_grid row col rest 0 m hne
    (by rwa [Int.add_zero])
  rw [Int.add_zero] at hgrid
  exact ⟨m', hloop, hgrid, hsame⟩

/-- **`kprintf` on the screen.** For every format and arguments that fit it, every row and every
column, the first 127 characters of the text stand in the row from the column on, yellow, as far as
the grid goes on either side; every other cell, and every byte off the screen, is as before. -/
theorem kprintf_screen {last : Addr} {f : List Byte} {ws : List Word} {t : List Byte}
    (h : Call m last f ws t) (row : Int) (hfit : col + (t.take 127).length ≤ intMax + 1) :
    ∃ m', Returns (fun fuel => kprintf m fuel row col last) m' ∧
      grid m' = (grid m).write row col (yellow (t.take 127)) ∧ SameOffScreen m m' := by
  obtain ⟨s, hret, htruncated⟩ := h.returns
  have hne : ∀ c ∈ t.take 127, c ≠ 0 := fun c hc =>
    h.renders.ne_zero f (fun d hd => h.format.ne_zero hd) c (List.mem_of_mem_take hc)
  obtain ⟨m', hprint, hgrid, hsame⟩ := kprint_grid hne hfit row [] m
  refine ⟨m', hret.bind (.of_ok ?_), hgrid, hsame⟩
  rw [htruncated.buffer]
  exact hprint

end Print

/-! ## `clear_screen` -/

/-- A byte is written to a virtual address. -/
def writeVirt (pgdir va : Addr) (b : Byte) (m : Mem) : Res Mem :=
  match translate m pgdir va with
  | some t => if t.writable then .ok (store8 m (p2v t.pa) b) else .error .fault
  | none => .error .fault

def clearScreenLoop (pgdir : Addr) : Nat → Nat → Mem → Res Mem
  | 0, _, _ => .error .diverge
  | n + 1, i, m =>
    if i < 80 * 25 * 2 then do
      let m ← writeVirt pgdir (0xB8000 + BitVec.ofNat 32 i) (chr ' ') m
      let m ← writeVirt pgdir (0xB8000 + BitVec.ofNat 32 (i + 1)) 0x07 m
      clearScreenLoop pgdir n (i + 2) m
    else .ok m

/-- With the directory `pgdir` in use. -/
def clearScreen (pgdir : Addr) (m : Mem) : Res Mem := clearScreenLoop pgdir 2001 0 m

section Clear
variable {m m' : Mem} {d p va : Addr}

theorem EntryPgdir.translate_low (h : EntryPgdir m d) (hva : va.toNat < 0x400000) :
    translate m d va = some ⟨va, true, false⟩ := by
  have hidx : pdx va = 0 := by
    apply BitVec.eq_of_toNat_eq
    rw [pdx_toNat]
    show _ = 0
    omega
  have hpde : load32 m (d + 4 * pdx va) = 0x83 := by
    have hentry := h.entries (pdx va) (pdx_lt va)
    rwa [if_pos (Or.inl hidx)] at hentry
  have hoff : va &&& 0x003FFFFF#32 = va := by
    apply BitVec.eq_of_toNat_eq
    rw [BitVec.toNat_and]
    exact (Nat.and_two_pow_sub_one_eq_mod va.toNat 22).trans (Nat.mod_eq_of_lt hva)
  have hframe : (0x83 : Word) &&& 0xFFC00000#32 = 0 := by decide
  unfold translate
  simp only [hpde, hoff, hframe]
  rw [if_neg (by decide), if_pos (by decide)]
  exact congrArg some (congrArg₂ (fun a w => Translation.mk a w false) BitVec.zero_or rfl)

theorem EntryPgdir.same (h : EntryPgdir m d) (hm : SameOutside p m m') (hne : d ≠ p) : EntryPgdir m' d where
  aligned := h.aligned
  entries i hi := by
    rw [hm.entry h.aligned hi hne]
    exact h.entries i hi

/-- With the boot directory the byte is written behind `KERNBASE`. -/
theorem writeVirt_entry (h : EntryPgdir m d) {k : Nat} (hk : k < 4000) (hne : d ≠ video) (b : Byte) :
    writeVirt d (0xB8000 + BitVec.ofNat 32 k) b m = .ok (store8 m (video + BitVec.ofNat 32 k) b) ∧
      EntryPgdir (store8 m (video + BitVec.ofNat 32 k) b) d := by
  have hpa : p2v (0xB8000 + BitVec.ofNat 32 k) = video + BitVec.ofNat 32 k := by
    rw [video, p2v, p2v]
    generalize kernBase = g
    grind
  have hlow : (0xB8000 + BitVec.ofNat 32 k : Addr).toNat < 0x400000 := by
    rw [BitVec.toNat_add, BitVec.toNat_ofNat]
    show (0xB8000 + k % 2 ^ 32) % 2 ^ 32 < _
    omega
  have hpage : pgRoundDown (video + BitVec.ofNat 32 k) = video := by
    rw [pgRoundDown_eq_iff (by decide), BitVec.add_comm, BitVec.add_sub_cancel, BitVec.toNat_ofNat]
    omega
  refine ⟨?_, EntryPgdir.same h (sameOutside_store8 m b hpage) hne⟩
  rw [writeVirt, EntryPgdir.translate_low h hlow]
  simp only [hpa, if_true]

theorem clearScreenLoop_blank (hne : d ≠ video) : ∀ {n k : Nat} {m : Mem}, 2001 ≤ k + n → k ≤ 2000 →
    EntryPgdir m d → (∀ i j, i.val * 80 + j.val < k → grid m i j = blank) →
    ∃ m', clearScreenLoop d n (2 * k) m = .ok m' ∧ (∀ i j, grid m' i j = blank) ∧ SameOffScreen m m' := by
  intro n
  induction n with
  | zero =>
    intro k m hn hk _ _
    omega
  | succ n ih =>
    intro k m hn hk hd hblank
    rw [clearScreenLoop]
    by_cases hend : 2 * k < 80 * 25 * 2
    · -- the cell of this round
      obtain ⟨i, j, hij⟩ : ∃ (i : Fin 25) (j : Fin 80), i.val * 80 + j.val = k :=
        ⟨⟨k / 80, by omega⟩, ⟨k % 80, Nat.mod_lt _ (by decide)⟩, Nat.div_add_mod' k 80⟩
      have hcell : video + BitVec.ofNat 32 (2 * k) = cellAddr i j := by
        rw [cellAddr, hij, Nat.mul_comm]
      have hcell' : video + BitVec.ofNat 32 (2 * k + 1) = cellAddr i j + 1 := by
        rw [← hcell, BitVec.ofNat_add, BitVec.add_assoc]
        rfl
      obtain ⟨hchar, hd₁⟩ := writeVirt_entry hd (k := 2 * k) (by omega) hne (chr ' ')
      obtain ⟨hattr, hd₂⟩ := writeVirt_entry hd₁ (k := 2 * k + 1) (by omega) hne 0x07
      rw [if_pos hend, hchar, ok_bind, hattr, ok_bind]
      rw [hcell, hcell'] at hd₂ ⊢
      obtain ⟨m', hloop, hall, hsame⟩ := ih (k := k + 1) (by omega) (by omega) hd₂ fun i' j' hlt => by
        rw [grid_store]
        simp only [Grid.put]
        split_ifs with heq
        · rfl
        · refine hblank i' j' (lt_of_le_of_ne (by omega) fun hk' => heq ?_)
          have hj := j.isLt
          have hj' := j'.isLt
          omega
      exact ⟨m', hloop, hall, (sameOffScreen_store _ _).trans hsame⟩
    · rw [if_neg hend]
      refine ⟨m, rfl, fun i j => hblank i j ?_, fun _ _ => rfl⟩
      have hi := i.isLt
      have hj := j.isLt
      omega

/-- **`clear_screen` is for boot only.** With `entrypgdir` in use every cell is blank afterwards and
nothing off the screen has changed; with any directory that maps as `setup_kvm` does, its first store
is a page fault. -/
theorem clear_screen_boot_only (m : Mem) (d : Addr) :
    (EntryPgdir m d → d ≠ video → ∃ m', clearScreen d m = .ok m' ∧ (∀ i j, grid m' i j = blank) ∧
      SameOffScreen m m') ∧
    ∀ kdata, (∀ va, translate m d va = kernelLayout kdata va) → clearScreen d m = .error .fault := by
  refine ⟨fun hd hne => ?_, fun kdata hlayout => ?_⟩
  · exact clearScreenLoop_blank hne (k := 0) (by omega) (by omega) hd fun i j h => absurd h (Nat.not_lt_zero _)
  · have hnone : translate m d 0xB8000 = none := by
      rw [hlayout]
      rfl
    have hwrite : writeVirt d (0xB8000 + BitVec.ofNat 32 0) (chr ' ') m = .error .fault := by
      show writeVirt d 0xB8000 (chr ' ') m = .error .fault
      rw [writeVirt, hnone]
    rw [clearScreen, clearScreenLoop, if_pos (by decide), hwrite]
    rfl

/-- With the boot directory at `0x8010A000`, and with a directory that `setup_kvm` has built. -/
theorem clear_screen_boot_only_both :
    (∃ m', clearScreen 0x8010A000 entryMem = .ok m' ∧ ∀ i j, grid m' i j = blank) ∧
      ∃ pgdir s', setupKvm (initKmappings 0x80110000) (someFree 70) = .ok (pgdir, s') ∧
        clearScreen pgdir s'.mem = .error .fault := by
  have hdata : PageAligned 0x80110000 := by decide
  obtain ⟨pgdir, s', hrun, hk⟩ := setupKvm_ok hdata (by decide) (by decide) (someFree_ok 70 (by decide))
    (by decide)
  obtain ⟨m', hclear, hblank, -⟩ := (clear_screen_boot_only entryMem 0x8010A000).1 entryPgdir_entryMem
    (by decide)
  exact ⟨⟨m', hclear, hblank⟩, pgdir, s', hrun,
    (clear_screen_boot_only s'.mem pgdir).2 0x80110000 (hk.translate hdata (by decide) (by decide))⟩

end Clear

/-! ## `init_show` -/

def logo : List (List Byte) :=
  [ "TTTTTTTT  UU   UU  IIIIII  ##   ## ",
    "   TT     UU   UU    II      # #   ",
    "   TT     UU   UU    II       #    ",
    "   TT     UU   UU    II      # #   ",
    "   TT      UUUUU   IIIIII  ##   ##" ].map fun s => s.toList.map chr

def version : List Byte := "TuixOS v0.01".toList.map chr
def waiting : List Byte := "LOGO!".toList.map chr
def done : List Byte := "Done!".toList.map chr

/-- `kprint` of a literal. -/
def kprintText (row col : Int) (text : List Byte) (m : Mem) : Res Mem := kprint row col (text ++ [0]) m

def printLogoLoop : List (List Byte) → Int → Mem → Res Mem
  | [], _, m => .ok m
  | text :: rows, i, m => do
    let m ← kprintText (9 + i) 21 text m
    printLogoLoop rows (i + 1) m

/-- `while (c--)` -/
def waitLoop : Nat → Mem → Res Mem
  | 0, m => .ok m
  | c + 1, m => do
    let m ← kprintText 0 0 waiting m
    waitLoop c m

/-- `print_LOGO`, with the count of its loop, which is 500000. -/
def printLOGO (c : Nat) (m : Mem) : Res Mem := do
  let m ← printLogoLoop logo 0 m
  let m ← kprintText 20 33 version m
  let m ← waitLoop c m
  kprintText 0 0 done m

/-- `init_show` without the serial port. -/
def initShow (pgdir : Addr) (c : Nat) (m : Mem) : Res Mem := do
  let m ← clearScreen pgdir m
  printLOGO c m

section Show
variable {m : Mem}

/-- The text and the rest of the screen. -/
structure Shows (row col : Int) (text : List Byte) (m m' : Mem) : Prop where
  grid : grid m' = (Screen.grid m).write row col (yellow text)
  off : SameOffScreen m m'

theorem kprintText_shows (row col : Int) {text : List Byte} (hne : ∀ c ∈ text, c ≠ 0)
    (hfit : col + text.length ≤ intMax + 1) (m : Mem) :
    ∃ m', kprintText row col text m = .ok m' ∧ Shows row col text m m' := by
  obtain ⟨m', hprint, hgrid, hsame⟩ := kprint_grid hne hfit row [] m
  exact ⟨m', hprint, hgrid, hsame⟩

/-- The rows of the logo from the row `i` on. -/
def logoGrid : List (List Byte) → Int → Grid 25 80 (Byte × Byte) → Grid 25 80 (Byte × Byte)
  | [], _, g => g
  | text :: rows, i, g => logoGrid rows (i + 1) (g.write (9 + i) 21 (yellow text))

theorem logo_ne_zero : ∀ text ∈ logo, ∀ c ∈ text, c ≠ 0 := by simp [logo, chr]

theorem logo_length : ∀ text ∈ logo, text.length ≤ 35 := by simp [logo]

theorem printLogoLoop_shows : ∀ (rows : List (List Byte)) (i : Int) (m : Mem),
    (∀ text ∈ rows, (∀ c ∈ text, c ≠ 0) ∧ 21 + (text.length : Int) ≤ intMax + 1) →
    ∃ m', printLogoLoop rows i m = .ok m' ∧ grid m' = logoGrid rows i (grid m) ∧ SameOffScreen m m' := by
  intro rows
  induction rows with
  | nil =>
    intro i m _
    exact ⟨m, rfl, rfl, fun _ _ => rfl⟩
  | cons text rows ih =>
    intro i m h
    obtain ⟨hne, hfit⟩ := h text List.mem_cons_self
    obtain ⟨m₁, hprint, hshows⟩ := kprintText_shows (9 + i) 21 hne hfit m
    obtain ⟨m', hloop, hgrid, hsame⟩ := ih (i + 1) m₁ fun t ht => h t (List.mem_cons_of_mem text ht)
    refine ⟨m', ?_, ?_, hshows.off.trans hsame⟩
    · rw [printLogoLoop, hprint, ok_bind]
      exact hloop
    · rw [hgrid, hshows.grid, logoGrid]

/-- However often it is shown, what comes over it is what is seen. -/
theorem waitLoop_shows : ∀ (c : Nat) (m : Mem), ∃ m', waitLoop c m = .ok m' ∧ SameOffScreen m m' ∧
    (grid m').write 0 0 (yellow done) = (grid m).write 0 0 (yellow done) := by
  intro c
  induction c with
  | zero => exact fun m => ⟨m, rfl, fun _ _ => rfl, rfl⟩
  | succ c ih =>
    intro m
    have hne : ∀ c ∈ waiting, c ≠ 0 := by decide
    obtain ⟨m₁, hprint, hshows⟩ := kprintText_shows 0 0 hne (by decide) m
    obtain ⟨m', hloop, hsame, hdone⟩ := ih m₁
    refine ⟨m', ?_, hshows.off.trans hsame, ?_⟩
    · rw [waitLoop, hprint, ok_bind]
      exact hloop
    · rw [hdone, hshows.grid, Grid.write_write (by decide)]

/-- The screen when the kernel has shown its logo. -/
def shown : Grid 25 80 (Byte × Byte) :=
  ((logoGrid logo 0 fun _ _ => blank).write 20 33 (yellow version)).write 0 0 (yellow done)

/-- **The screen after `init_show`,** whatever stood on it and however long the loop shows its text. -/
theorem initShow_shown {d : Addr} (hd : EntryPgdir m d) (hne : d ≠ video) (c : Nat) :
    ∃ m', initShow d c m = .ok m' ∧ grid m' = shown ∧ SameOffScreen m m' := by
  obtain ⟨m₁, hclear, hblank, hsame₁⟩ := clearScreenLoop_blank hne (n := 2001) (k := 0) (by omega)
    (by omega) hd fun i j h => absurd h (Nat.not_lt_zero _)
  have hfit : ∀ text ∈ logo, 21 + (text.length : Int) ≤ intMax + 1 := by
    intro text htext
    have hle := logo_length text htext
    rw [intMax]
    omega
  obtain ⟨m₂, hlogo, hgrid₂, hsame₂⟩ := printLogoLoop_shows logo 0 m₁ fun text htext =>
    ⟨logo_ne_zero text htext, hfit text htext⟩
  have hne₃ : ∀ c ∈ version, c ≠ 0 := by decide
  obtain ⟨m₃, hversion, hshows₃⟩ := kprintText_shows 20 33 hne₃ (by decide) m₂
  obtain ⟨m₄, hwait, hsame₄, hdone₄⟩ := waitLoop_shows c m₃
  have hne₅ : ∀ c ∈ done, c ≠ 0 := by decide
  obtain ⟨m₅, hdone, hshows₅⟩ := kprintText_shows 0 0 hne₅ (by decide) m₄
  have hstart : grid m₁ = fun _ _ => blank := funext fun i => funext fun j => hblank i j
  refine ⟨m₅, ?_, ?_, (((hsame₁.trans hsame₂).trans hshows₃.off).trans hsame₄).trans hshows₅.off⟩
  · rw [initShow, clearScreen, hclear, ok_bind, printLOGO, hlogo, ok_bind, hversion, ok_bind, hwait, ok_bind,
      hdone]
  · rw [hshows₅.grid, hdone₄, hshows₃.grid, hgrid₂, hstart, shown]

end Show

/-- `kprintf(24, 75, "%x", 7)`: the last digits are cut off by the end of the row. -/
theorem kprintf_screen_cut : ∃ m', Returns (fun fuel => kprintf (Serial.callMem (chr 'x')) fuel 24 75 0x2000) m' ∧
    grid m' 24 79 = (chr '0', 0x0E) ∧ SameOffScreen (Serial.callMem (chr 'x')) m' := by
  have hcall : Call (Serial.callMem (chr 'x')) 0x2000 [chr '%', chr 'x'] [7]
      ((fixedDigits 16 8 7).map upperDigit ++ []) :=
    ⟨by decide, Serial.argsAt_callMem _, .cons (.hex 7) .nil, by decide, by decide, by decide⟩
  obtain ⟨m', hret, hgrid, hsame⟩ := kprintf_screen hcall 24 (show (75 : Int) + _ ≤ _ by decide)
  refine ⟨m', hret, ?_, hsame⟩
  rw [hgrid]
  rfl

end Screen

end TuixOS
