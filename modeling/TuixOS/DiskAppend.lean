import TuixOS.MkfsDisk

/-!
# Appending bytes to a disk

`Disk.put` is a pass of the loop of `iappend` with the bytes it takes, and `Disk.append` the passes of
single bytes. A pass is the passes of its bytes (`put_eq_append`), so how a string is cut into passes
does not show on the disk.
-/

namespace TuixOS.Mkfs

open Lib

variable {D : Disk} {i : Ino} {p : List Byte} {c : Byte}

theorem blocksOf_mono {n m : Nat} (h : n ≤ m) : blocksOf n ≤ blocksOf m := by
  unfold blocksOf directNum bSize
  split_ifs <;> omega

theorem memmove_before {buf : Buf} {o k : Nat} {xs : List Byte} (h : k < o) :
    memmove buf o xs k = buf k := if_neg (by omega)

theorem memmove_inside {buf : Buf} {o k : Nat} {xs : List Byte} (h : k < xs.length) :
    memmove buf o xs (o + k) = xs[k] := by
  unfold memmove
  rw [if_pos (by omega), Nat.add_sub_cancel_left]
  exact (List.getElem_eq_getD 0).symm

theorem memmove_cons (buf : Buf) (o : Nat) (c : Byte) (p : List Byte) :
    memmove (memmove buf o [c]) (o + 1) p = memmove buf o (c :: p) := by
  funext k
  unfold memmove
  rcases Nat.lt_trichotomy k o with hk | rfl | hk
  · rw [if_neg (by omega), if_neg (by omega), if_neg (by omega)]
  · rw [if_neg (by omega), if_pos (by simp), if_pos (by simp), Nat.sub_self]
    rfl
  · obtain ⟨m, rfl⟩ := Nat.exists_eq_add_of_lt hk
    have hm : o + m + 1 - o = m + 1 := by omega
    have hm' : o + m + 1 - (o + 1) = m := by omega
    rw [hm, hm']
    by_cases hin : m < p.length
    · rw [if_pos (by omega), if_pos (by rw [List.length_cons]; omega), List.getD_cons_succ]
    · rw [if_neg (by omega), if_neg (by rw [List.length_singleton]; omega),
        if_neg (by rw [List.length_cons]; omega)]

namespace Disk

/-- A pass of the loop with the bytes `p`. -/
def put (D : Disk) (i : Ino) (p : List Byte) : Disk :=
  let E := D.ensure i (D.size i / bSize)
  let buf := E.blk (E.val (blockRef i (D.size i / bSize)))
  D.pass i (memmove buf (D.size i % bSize) p) p.length

/-- The bytes `xs`, one at a time. -/
def append (D : Disk) (i : Ino) (xs : List Byte) : Disk := xs.foldl (fun D c => D.put i [c]) D

theorem put_appended (h : D.Inv) (i : Ino) (hp : p ≠ [])
    (hfit : D.size i % bSize + p.length ≤ bSize) (hmax : D.size i < maxFile * bSize)
    (hroom : D.free.toNat + blocksOf (D.size i + p.length) ≤ fsSize + blocksOf (D.size i)) :
    Appended i p D (D.put i p) :=
  pass_appended h i hp hfit hmax hroom (fun _ ho => memmove_before ho) fun _ hk => memmove_inside hk

theorem Inv.put_byte (h : D.Inv) (i : Ino) (c : Byte) (hmax : D.size i < maxFile * bSize)
    (hroom : D.free.toNat + blocksOf (D.size i + 1) ≤ fsSize + blocksOf (D.size i)) :
    Appended i [c] D (D.put i [c]) :=
  put_appended h i (List.cons_ne_nil c []) (Nat.mod_lt _ (by decide)) hmax hroom

/-- A block that a file has is not looked for. -/
theorem ensure_self {fbn : Nat} (hgot : D.val (blockRef i fbn) ≠ 0)
    (hind : directNum ≤ fbn → D.val (.addr i 12) ≠ 0) : D.ensure i fbn = D := by
  unfold ensure
  by_cases hdir : fbn < directNum
  · have href : blockRef i fbn = .addr i ⟨fbn, direct_lt hdir⟩ := dif_pos hdir
    rw [dif_pos hdir, if_neg (href ▸ hgot)]
  · have href : blockRef i fbn = .entry i (Fin.ofNat 128 (fbn - directNum)) := dif_neg hdir
    rw [dif_neg hdir, if_neg (hind (by omega))]
    exact if_neg (href ▸ hgot)

/-- A block written twice, and the size with it. -/
theorem write_setSize_twice (D : Disk) (b : Nat) (buf buf' : Buf) (n n' : Word) :
    (((D.write b buf).setSize i n).write b buf').setSize i n' = (D.write b buf').setSize i n' := by
  unfold write setSize
  simp only [Function.update_self, Function.update_idem]

/-- The first byte of a pass may have one of its own. -/
theorem put_cons (h : D.Inv) (i : Ino) (c : Byte) (hp : p ≠ [])
    (hfit : D.size i % bSize + (c :: p).length ≤ bSize) (hmax : D.size i < maxFile * bSize)
    (hroom : D.free.toNat + D.missing i (D.size i / bSize) ≤ fsSize) :
    (D.put i [c]).put i p = D.put i (c :: p) := by
  have hpos := List.length_pos_of_ne_nil hp
  rw [List.length_cons] at hfit
  obtain ⟨-, hgot, hgotInd, -⟩ := ensure_spec h.toSound i _ hroom
  have hsize : (D.put i [c]).size i = D.size i + 1 := by
    rw [put, pass_size h i _ hroom (by rw [List.length_singleton]; omega), if_pos rfl]
    rfl
  have hdiv : (D.size i + 1) / bSize = D.size i / bSize := by
    unfold bSize at hfit ⊢
    omega
  have hmod : (D.size i + 1) % bSize = D.size i % bSize + 1 := by
    unfold bSize at hfit ⊢
    omega
  have hval : (D.put i [c]).val = (D.ensure i (D.size i / bSize)).val := pass_val h i _ _ hroom
  have hself : (D.put i [c]).ensure i (D.size i / bSize) = D.put i [c] :=
    ensure_self (by rwa [hval]) fun hle => by
      rw [hval]
      exact hgotInd hle
  rw [put, hsize, hdiv, hmod]
  simp only [pass, hsize, hdiv, hself, hval]
  have hblk : (D.put i [c]).blk
      ((D.ensure i (D.size i / bSize)).val (blockRef i (D.size i / bSize))) =
      memmove ((D.ensure i (D.size i / bSize)).blk
        ((D.ensure i (D.size i / bSize)).val (blockRef i (D.size i / bSize))))
        (D.size i % bSize) [c] := Function.update_self ..
  rw [hblk, memmove_cons]
  show ((((D.ensure i (D.size i / bSize)).write _ _).setSize i _).write _ _).setSize i _ = _
  rw [write_setSize_twice, Nat.add_right_comm]
  rfl

/-- **A pass** is the passes of its bytes. -/
theorem put_eq_append (h : D.Inv) (i : Ino) (hp : p ≠ [])
    (hfit : D.size i % bSize + p.length ≤ bSize) (hmax : D.size i < maxFile * bSize)
    (hroom : D.free.toNat + blocksOf (D.size i + p.length) ≤ fsSize + blocksOf (D.size i)) :
    D.put i p = D.append i p := by
  induction p generalizing D with
  | nil => exact absurd rfl hp
  | cons c p ih =>
    by_cases hnil : p = []
    · subst hnil
      rfl
    have hpos := List.length_pos_of_ne_nil hnil
    have hmono : blocksOf (D.size i + 1) ≤ blocksOf (D.size i + (c :: p).length) :=
      blocksOf_mono (Nat.add_le_add_left (Nat.le_add_left 1 p.length) _)
    have hmiss := h.missing_eq i Nat.one_pos (Nat.mod_lt _ (by decide)) hmax
    have happ := h.put_byte i c (by omega) (by omega)
    have hsize : (D.put i [c]).size i = D.size i + 1 := happ.size
    have hfree := happ.free
    rw [hsize] at hfree
    rw [← put_cons h i c hnil hfit hmax (by omega)]
    rw [List.length_cons] at hfit hroom
    refine ih happ.inv hnil ?_ ?_ ?_
    · rw [hsize]
      unfold bSize at hfit ⊢
      omega
    · rw [hsize]
      unfold bSize maxFile at *
      omega
    · rw [hsize, Nat.add_assoc, Nat.add_comm 1]
      omega

/-- A block in use that holds no entries may be overwritten. -/
theorem Inv.write (h : D.Inv) {b : Nat} (buf : Buf) (hb : b < D.free.toNat)
    (hind : ∀ i, D.val (.addr i 12) ≠ b) : (D.write b buf).Inv := by
  have hval : (D.write b buf).val = D.val := val_write fun i _ => hind i
  refine ⟨⟨?_, h.low, h.high, fun b' hb' hhi => ?_⟩, h.size, ?_, ?_⟩
  · rw [hval]
    exact h.nums
  · have hne : b' ≠ b := by
      change D.free.toNat ≤ b' at hb'
      omega
    show Function.update D.blk b buf b' = _
    rw [Function.update_of_ne hne]
    exact h.fresh b' hb' hhi
  · rw [hval]
    exact h.used
  · rw [hval]
    exact h.indirect

theorem append_append (D : Disk) (i : Ino) (xs ys : List Byte) :
    (D.append i xs).append i ys = D.append i (xs ++ ys) := List.foldl_append.symm

/-- What `append` says, in the words of `Appended`. -/
theorem append_appended (h : D.Inv) (i : Ino) {xs : List Byte}
    (hmax : D.size i + xs.length ≤ maxFile * bSize)
    (hroom : D.free.toNat + blocksOf (D.size i + xs.length) ≤ fsSize + blocksOf (D.size i)) :
    Appended i xs D (D.append i xs) := by
  induction xs generalizing D with
  | nil => exact Appended.refl h i
  | cons c xs ih =>
    rw [List.length_cons] at hmax hroom
    have hmono : blocksOf (D.size i + 1) ≤ blocksOf (D.size i + (xs.length + 1)) :=
      blocksOf_mono (by omega)
    have happ := h.put_byte i c (by omega) (by omega)
    have hsize : (D.put i [c]).size i = D.size i + 1 := happ.size
    have hfree := happ.free
    rw [hsize] at hfree
    have hrest := ih happ.inv (by rw [hsize]; omega) (by
      rw [hsize, Nat.add_assoc, Nat.add_comm 1]
      omega)
    exact happ.trans hrest

end Disk

end TuixOS.Mkfs
