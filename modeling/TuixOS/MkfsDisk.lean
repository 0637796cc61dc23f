import TuixOS.Mkfs
import TuixOS.Lib.Numbering

/-!
# A disk as `iappend` builds it

The abstract state of the image: the inode table, the contents of the blocks and the counter of
`freeblock`. `Disk.val` gives the number at each place that can refer to a block; `Disk.Inv` says
that these numbers are the blocks handed out so far, each referred to once, and that a file has the
blocks its size asks for. One pass of the loop of `iappend` keeps it (`Disk.append_pass`) and
appends to one file (`Appended`).
-/

namespace TuixOS.Mkfs

open Lib

/-- The inodes that fit below the data blocks: those of the table, and those of the bitmap block, which
`ialloc` reaches when the table is full. -/
def slotsNum : Nat := (metaNum - (2 + logSize)) * ipb

abbrev Ino := Fin slotsNum

structure Disk where
  ino : Ino → Dinode
  blk : Nat → Buf
  free : Word

/-- A place for a block number. -/
inductive Ref
  /-- `addrs[k]` of an inode. -/
  | addr (i : Ino) (k : Fin 13)
  /-- Entry `j` of the indirect block of an inode. -/
  | entry (i : Ino) (j : Fin 128)
  deriving DecidableEq

/-- The place for block `fbn` of a file. -/
def blockRef (i : Ino) (fbn : Nat) : Ref :=
  if h : fbn < directNum then .addr i ⟨fbn, direct_lt h⟩
  else .entry i (Fin.ofNat 128 (fbn - directNum))

theorem entryIndex_val {fbn : Nat} (h : fbn < maxFile) :
    (Fin.ofNat 128 (fbn - directNum)).val = fbn - directNum := by
  unfold maxFile indirectNum at h
  exact Nat.mod_eq_of_lt (by omega)

namespace Disk

def val (D : Disk) : Ref → Nat
  | .addr i k => ((D.ino i).addrs k).toNat
  | .entry i j =>
    if (D.ino i).addrs 12 = 0 then 0
    else (load32 (D.blk ((D.ino i).addrs 12).toNat) (4 * j.val)).toNat

def size (D : Disk) (i : Ino) : Nat := (D.ino i).size.toNat

/-- Byte `o` of a file. -/
def byte (D : Disk) (i : Ino) (o : Nat) : Byte :=
  D.blk (D.val (blockRef i (o / bSize))) (o % bSize)

def content (D : Disk) (i : Ino) : List Byte := (List.range (D.size i)).map (D.byte i)

/-! ## The updates of `iappend` -/

def setAddr (D : Disk) (i : Ino) (k : Fin 13) : Disk :=
  { D with ino := Function.update D.ino i ((D.ino i).setAddr k D.free), free := D.free + 1 }

def setEntry (D : Disk) (i : Ino) (j : Fin 128) : Disk :=
  let b := ((D.ino i).addrs 12).toNat
  { D with blk := Function.update D.blk b (store32 (D.blk b) (4 * j.val) D.free), free := D.free + 1 }

def write (D : Disk) (b : Nat) (buf : Buf) : Disk := { D with blk := Function.update D.blk b buf }

def setSize (D : Disk) (i : Ino) (n : Word) : Disk :=
  { D with ino := Function.update D.ino i { D.ino i with size := n } }

end Disk

/-- The blocks that a file of `n` bytes takes, its indirect block among them. -/
def blocksOf (n : Nat) : Nat :=
  (n + 511) / bSize + if directNum * bSize < n then 1 else 0

/-- Every block handed out is referred to once, and the others are still zero. -/
structure Disk.Sound (D : Disk) : Prop where
  nums : Numbers D.val metaNum D.free.toNat
  low : metaNum ≤ D.free.toNat
  high : D.free.toNat ≤ fsSize
  fresh : ∀ b, D.free.toNat ≤ b → b < fsSize → D.blk b = fun _ => 0

structure Disk.Inv (D : Disk) : Prop extends D.Sound where
  size : ∀ i, D.size i ≤ maxFile * bSize
  used : ∀ i fbn, fbn < maxFile → (D.val (blockRef i fbn) ≠ 0 ↔ fbn * bSize < D.size i)
  indirect : ∀ i, D.val (.addr i 12) ≠ 0 ↔ directNum * bSize < D.size i

variable {D D' : Disk} {i : Ino}

theorem metaNum_eq : metaNum = 59 := by decide

theorem Ino.lt (i : Ino) : i.val < 216 := i.isLt

theorem blockRef_ne_indirect (i i' : Ino) (fbn : Nat) : blockRef i fbn ≠ .addr i' 12 := by
  unfold blockRef
  split_ifs with h
  · intro heq
    have hk := congrArg Fin.val (Ref.addr.inj heq).2
    simp only [directNum] at h
    change fbn = 12 at hk
    omega
  · simp

theorem blockRef_inj {i i' : Ino} {fbn fbn' : Nat} (h : fbn < maxFile) (h' : fbn' < maxFile)
    (heq : blockRef i fbn = blockRef i' fbn') : i = i' ∧ fbn = fbn' := by
  simp only [maxFile, directNum, indirectNum] at h h'
  unfold blockRef directNum at heq
  split_ifs at heq with h1 h2 h2
  · obtain ⟨rfl, hk⟩ := Ref.addr.inj heq
    exact ⟨rfl, by simpa using hk⟩
  · obtain ⟨hi, hk⟩ := Ref.entry.inj heq
    have hj := congrArg Fin.val hk
    simp only [Fin.val_ofNat] at hj
    exact ⟨hi, by omega⟩

namespace Disk

/-! ## The references after an update -/

theorem val_setAddr {k : Fin 13} (hk : k ≠ 12) :
    (D.setAddr i k).val = Function.update D.val (.addr i k) D.free.toNat := by
  funext r
  cases r with
  | addr i' k' =>
    by_cases hi : i' = i
    · subst hi
      by_cases hkk : k' = k
      · subst hkk
        simp [val, setAddr, Dinode.setAddr]
      · have hne : Ref.addr i' k' ≠ .addr i' k := by simp [hkk]
        simp [val, setAddr, Dinode.setAddr, Function.update_of_ne hne, Function.update_of_ne hkk]
    · have hne : Ref.addr i' k' ≠ .addr i k := by simp [hi]
      simp [val, setAddr, Function.update_of_ne hne, Function.update_of_ne hi]
  | entry i' j =>
    rw [Function.update_of_ne (by simp)]
    by_cases hi : i' = i
    · subst hi
      simp [val, setAddr, Dinode.setAddr, Function.update_of_ne (Ne.symm hk)]
    · simp [val, setAddr, Function.update_of_ne hi]

/-- A new indirect block has no entries. -/
theorem val_setAddr_indirect (h0 : (D.ino i).addrs 12 = 0)
    (hfresh : D.blk D.free.toNat = fun _ => 0) :
    (D.setAddr i 12).val = Function.update D.val (.addr i 12) D.free.toNat := by
  funext r
  cases r with
  | addr i' k' =>
    by_cases hi : i' = i
    · subst hi
      by_cases hkk : k' = 12
      · subst hkk
        simp [val, setAddr, Dinode.setAddr]
      · have hne : Ref.addr i' k' ≠ .addr i' 12 := by simp [hkk]
        simp [val, setAddr, Dinode.setAddr, Function.update_of_ne hne, Function.update_of_ne hkk]
    · have hne : Ref.addr i' k' ≠ .addr i 12 := by simp [hi]
      simp [val, setAddr, Function.update_of_ne hne, Function.update_of_ne hi]
  | entry i' j =>
    rw [Function.update_of_ne (by simp)]
    by_cases hi : i' = i
    · subst hi
      have haddr : ((D.setAddr i' 12).ino i').addrs 12 = D.free := by
        simp [setAddr, Dinode.setAddr]
      have hzero : load32 ((D.setAddr i' 12).blk D.free.toNat) (4 * j.val) = 0 := by
        show load32 (D.blk D.free.toNat) (4 * j.val) = 0
        rw [hfresh]
        exact word32_zero
      simp only [val, haddr, hzero, h0, if_true]
      split_ifs <;> rfl
    · simp [val, setAddr, Function.update_of_ne hi]

theorem val_setEntry (h : D.Sound) {j : Fin 128} (hind : (D.ino i).addrs 12 ≠ 0) :
    (D.setEntry i j).val = Function.update D.val (.entry i j) D.free.toNat := by
  funext r
  cases r with
  | addr i' k' =>
    rw [Function.update_of_ne (by simp)]
    rfl
  | entry i' j' =>
    by_cases hi : i' = i
    · subst hi
      by_cases hj : j' = j
      · subst hj
        rw [Function.update_self]
        simp only [val, setEntry, if_neg hind, Function.update_self, load32_store32_index]
      · have hne : Ref.entry i' j' ≠ .entry i' j := by simp [hj]
        have hjv : j'.val ≠ j.val := fun he => hj (Fin.ext he)
        rw [Function.update_of_ne hne]
        simp only [val, setEntry, Function.update_self]
        rw [load32_store32_index_ne _ _ _ _ (by omega)]
    · -- the indirect block of another inode is another block
      have hne : Ref.entry i' j' ≠ .entry i j := by simp [hi]
      rw [Function.update_of_ne hne]
      by_cases h0 : (D.ino i').addrs 12 = 0
      · simp [val, setEntry, h0]
      · have hblk : ((D.ino i').addrs 12).toNat ≠ ((D.ino i).addrs 12).toNat := by
          have hne' : Ref.addr i' 12 ≠ .addr i 12 := by simp [hi]
          refine h.nums.ne ?_ hne'
          exact fun hz => h0 (BitVec.eq_of_toNat_eq hz)
        simp only [val, setEntry, Function.update_of_ne hblk]

/-- A block that is no indirect block holds no references. -/
theorem val_write {b : Nat} {buf : Buf} (hb : ∀ i, (D.ino i).addrs 12 ≠ 0 → ((D.ino i).addrs 12).toNat ≠ b) :
    (D.write b buf).val = D.val := by
  funext r
  cases r with
  | addr i k => rfl
  | entry i j =>
    by_cases h0 : (D.ino i).addrs 12 = 0
    · simp [val, write, h0]
    · simp only [val, write, Function.update_of_ne (hb i h0)]

theorem val_setSize {n : Word} : (D.setSize i n).val = D.val := by
  funext r
  have haddrs : ∀ i', ((D.setSize i n).ino i').addrs = (D.ino i').addrs := by
    intro i'
    by_cases hi : i' = i
    · subst hi
      simp [setSize]
    · simp [setSize, Function.update_of_ne hi]
  have hblk : (D.setSize i n).blk = D.blk := rfl
  cases r <;> simp only [val, haddrs, hblk]

/-! ## The invariant through an update -/

theorem Sound.free_succ (h : D.Sound) : (D.free + 1).toNat = D.free.toNat + 1 := by
  have hhigh := h.high
  unfold fsSize at hhigh
  bv_omega

/-- A place gets the next block. -/
structure Grows (r : Ref) (D D' : Disk) : Prop where
  zero : D.val r = 0
  val : D'.val = Function.update D.val r D.free.toNat
  free : D'.free = D.free + 1
  /-- Only indirect blocks are written. -/
  blk : ∀ b, (∀ i, D.val (.addr i 12) ≠ b ∨ b = 0) → D'.blk b = D.blk b
  kept : ∀ i, { D'.ino i with addrs := fun _ => 0 } = { D.ino i with addrs := fun _ => 0 }

theorem Sound.setAddr (h : D.Sound) (hroom : D.free.toNat < fsSize) {k : Fin 13}
    (h0 : D.val (.addr i k) = 0) : Grows (.addr i k) D (D.setAddr i k) where
  zero := h0
  val := by
    by_cases hk : k = 12
    · subst hk
      exact val_setAddr_indirect (BitVec.eq_of_toNat_eq h0) (h.fresh _ le_rfl hroom)
    · exact val_setAddr hk
  free := rfl
  blk _ _ := rfl
  kept j := by
    by_cases hj : j = i
    · subst hj
      simp [Disk.setAddr, Dinode.setAddr]
    · simp [Disk.setAddr, Function.update_of_ne hj]

theorem Sound.setEntry (h : D.Sound) {j : Fin 128} (hind : D.val (.addr i 12) ≠ 0)
    (h0 : D.val (.entry i j) = 0) : Grows (.entry i j) D (D.setEntry i j) where
  zero := h0
  val := by
    refine val_setEntry h fun hz => hind ?_
    simp [Disk.val, hz]
  free := rfl
  blk b hb := by
    have hne : b ≠ ((D.ino i).addrs 12).toNat := by
      rintro rfl
      exact (hb i).elim (fun hi => hi rfl) hind
    simp only [Disk.setEntry, Function.update_of_ne hne]
  kept _ := rfl

theorem Grows.sound {r : Ref} (hg : Grows r D D') (h : D.Sound) (hroom : D.free.toNat < fsSize) :
    D'.Sound := by
  have hlow := h.low
  have hfree : D'.free.toNat = D.free.toNat + 1 := by rw [hg.free, h.free_succ]
  refine ⟨?_, by omega, by omega, fun b hb hhi => ?_⟩
  · rw [hfree]
    refine h.nums.fresh (by decide) hlow hg.zero ?_ fun r' hr' => ?_
    · rw [hg.val, Function.update_self]
    · rw [hg.val, Function.update_of_ne hr']
  · rw [hg.blk b fun i => ?_, h.fresh b (by omega) hhi]
    have hrange := h.nums.range (.addr i 12)
    omega

/-! ## One pass of the loop -/

/-- `iappendBlock` on the disk: block `fbn` of a file gets a number if it has none. -/
def ensure (D : Disk) (i : Ino) (fbn : Nat) : Disk :=
  if h : fbn < directNum then
    if D.val (.addr i ⟨fbn, direct_lt h⟩) = 0 then D.setAddr i ⟨fbn, direct_lt h⟩
    else D
  else
    let D := if D.val (.addr i 12) = 0 then D.setAddr i 12 else D
    if D.val (.entry i (Fin.ofNat 128 (fbn - directNum))) = 0 then
      D.setEntry i (Fin.ofNat 128 (fbn - directNum))
    else D

/-- How many blocks that takes. -/
def missing (D : Disk) (i : Ino) (fbn : Nat) : Nat :=
  (if D.val (blockRef i fbn) = 0 then 1 else 0) +
    if directNum ≤ fbn ∧ D.val (.addr i 12) = 0 then 1 else 0

/-- Numbers have been given out, to the places `P` at most. -/
structure Extends (P : Ref → Prop) (D D' : Disk) : Prop where
  sound : D'.Sound
  old : ∀ r, D.val r ≠ 0 → D'.val r = D.val r
  new : ∀ r, D'.val r ≠ 0 → D.val r ≠ 0 ∨ P r
  blk : ∀ r, D.val r ≠ 0 → (∀ i, r ≠ .addr i 12) → D'.blk (D.val r) = D.blk (D.val r)
  kept : ∀ i, { D'.ino i with addrs := fun _ => 0 } = { D.ino i with addrs := fun _ => 0 }

theorem Extends.refl (P : Ref → Prop) (h : D.Sound) : Extends P D D :=
  ⟨h, fun _ _ => rfl, fun _ hr => Or.inl hr, fun _ _ _ => rfl, fun _ => rfl⟩

theorem Extends.ne_zero {P : Ref → Prop} (h : Extends P D D') {r : Ref} (hr : D.val r ≠ 0) :
    D'.val r ≠ 0 := by
  rwa [h.old r hr]

theorem Extends.ne_zero_iff {P : Ref → Prop} (h : Extends P D D') {r : Ref} (hr : ¬P r) :
    D'.val r ≠ 0 ↔ D.val r ≠ 0 :=
  ⟨fun hne => (h.new r hne).resolve_right hr, h.ne_zero⟩

theorem Extends.trans {P : Ref → Prop} {D'' : Disk} (h : Extends P D D') (h' : Extends P D' D'') :
    Extends P D D'' where
  sound := h'.sound
  old r hr := by
    have hr' := h.old r hr
    rw [h'.old r (by rwa [hr']), hr']
  new r hr := (h'.new r hr).elim (h.new r) Or.inr
  blk r hr hne := by
    have hr' := h.old r hr
    have hblk := h'.blk r (by rwa [hr']) hne
    rw [hr'] at hblk
    rw [hblk, h.blk r hr hne]
  kept i := (h'.kept i).trans (h.kept i)

theorem Grows.extends {P : Ref → Prop} {r : Ref} (hg : Grows r D D') (h : D.Sound)
    (hroom : D.free.toNat < fsSize) (hP : P r) : Extends P D D' where
  sound := hg.sound h hroom
  old r' hr' := by
    have hne : r' ≠ r := by
      rintro rfl
      exact hr' hg.zero
    rw [hg.val, Function.update_of_ne hne]
  new r' hr' := by
    by_cases hr : r' = r
    · exact Or.inr (hr ▸ hP)
    · rw [hg.val, Function.update_of_ne hr] at hr'
      exact Or.inl hr'
  blk r' hr' hne := hg.blk _ fun i => Or.inl fun heq =>
    hne i (h.nums.inj r' (.addr i 12) hr' heq.symm)
  kept := hg.kept

/-- The places `ensure` may fill. -/
def Wanted (i : Ino) (fbn : Nat) (r : Ref) : Prop :=
  r = blockRef i fbn ∨ r = .addr i 12 ∧ directNum ≤ fbn

/-- The indirect block of a file, for one that needs it. -/
theorem ensure_indirect (h : D.Sound) (i : Ino) {fbn : Nat} (hfbn : directNum ≤ fbn)
    (hroom : D.val (.addr i 12) = 0 → D.free.toNat < fsSize) {D₁ : Disk}
    (hD₁ : (if D.val (.addr i 12) = 0 then D.setAddr i 12 else D) = D₁) :
    Extends (Wanted i fbn) D D₁ ∧ D₁.val (.addr i 12) ≠ 0 ∧
      D₁.val (blockRef i fbn) = D.val (blockRef i fbn) ∧
      D₁.free.toNat = D.free.toNat + if D.val (.addr i 12) = 0 then 1 else 0 := by
  have hlow := h.low
  rw [metaNum_eq] at hlow
  by_cases h0 : D.val (.addr i 12) = 0
  · rw [if_pos h0] at hD₁
    subst hD₁
    have hg := h.setAddr (hroom h0) h0
    refine ⟨hg.extends h (hroom h0) (Or.inr ⟨rfl, hfbn⟩), ?_, ?_, ?_⟩
    · rw [hg.val, Function.update_self]
      omega
    · rw [hg.val, Function.update_of_ne (blockRef_ne_indirect i i fbn)]
    · rw [hg.free, h.free_succ, if_pos h0]
  · rw [if_neg h0] at hD₁
    subst hD₁
    exact ⟨Extends.refl _ h, h0, rfl, by rw [if_neg h0, Nat.add_zero]⟩

theorem ensure_spec (h : D.Sound) (i : Ino) (fbn : Nat)
    (hroom : D.free.toNat + D.missing i fbn ≤ fsSize) :
    Extends (Wanted i fbn) D (D.ensure i fbn) ∧ (D.ensure i fbn).val (blockRef i fbn) ≠ 0 ∧
      (directNum ≤ fbn → (D.ensure i fbn).val (.addr i 12) ≠ 0) ∧
      (D.ensure i fbn).free.toNat = D.free.toNat + D.missing i fbn := by
  have hlow := h.low
  by_cases hfbn : fbn < directNum
  · have href : blockRef i fbn = .addr i ⟨fbn, direct_lt hfbn⟩ := dif_pos hfbn
    have hmiss : D.missing i fbn = if D.val (blockRef i fbn) = 0 then 1 else 0 := by
      simp [missing, Nat.not_le.mpr hfbn]
    rw [hmiss] at hroom ⊢
    rw [ensure, dif_pos hfbn, ← href]
    by_cases h0 : D.val (blockRef i fbn) = 0
    · rw [if_pos h0] at hroom ⊢
      rw [if_pos h0]
      have hg : Grows (blockRef i fbn) D (D.setAddr i ⟨fbn, direct_lt hfbn⟩) :=
        href ▸ h.setAddr (by omega) (href ▸ h0)
      refine ⟨hg.extends h (by omega) (Or.inl rfl), ?_, fun hle => absurd hfbn (by omega), ?_⟩
      · rw [hg.val, Function.update_self]
        rw [metaNum_eq] at hlow
        omega
      · rw [hg.free, h.free_succ]
    · rw [if_neg h0, if_neg h0]
      exact ⟨Extends.refl _ h, h0, fun hle => absurd hfbn (by omega), rfl⟩
  · have href : blockRef i fbn = .entry i (Fin.ofNat 128 (fbn - directNum)) := dif_neg hfbn
    have hle : directNum ≤ fbn := by omega
    have hmiss : D.missing i fbn = (if D.val (blockRef i fbn) = 0 then 1 else 0) +
        if D.val (.addr i 12) = 0 then 1 else 0 := by
      simp [missing, hle]
    rw [hmiss] at hroom ⊢
    rw [ensure, dif_neg hfbn, ← href]
    generalize hD₁ : (if D.val (.addr i 12) = 0 then D.setAddr i 12 else D) = D₁
    obtain ⟨hext, hind, hsame, hfree⟩ := ensure_indirect h i hle (fun h0 => by
      rw [if_pos h0] at hroom
      omega) hD₁
    have hlow₁ := hext.sound.low
    rw [metaNum_eq] at hlow₁
    by_cases h0 : D.val (blockRef i fbn) = 0
    · rw [if_pos h0] at hroom ⊢
      rw [if_pos (hsame.trans h0)]
      have hg : Grows (blockRef i fbn) D₁ (D₁.setEntry i (Fin.ofNat 128 (fbn - directNum))) :=
        href ▸ hext.sound.setEntry hind (href ▸ hsame.trans h0)
      refine ⟨hext.trans (hg.extends hext.sound (by omega) (Or.inl rfl)), ?_, fun _ => ?_, ?_⟩
      · rw [hg.val, Function.update_self]
        omega
      · rw [hg.val, Function.update_of_ne (Ne.symm (blockRef_ne_indirect i i fbn))]
        exact hind
      · rw [hg.free, hext.sound.free_succ, hfree]
        omega
    · rw [if_neg h0, if_neg (hsame ▸ h0)]
      refine ⟨hext, hsame ▸ h0, fun _ => hind, ?_⟩
      rw [hfree]
      omega

theorem content_length (D : Disk) (i : Ino) : (D.content i).length = D.size i := by
  simp [content]

end Disk

/-- The bytes `p` have been appended to one file, and the blocks for them handed out. -/
structure Appended (i : Ino) (p : List Byte) (D D' : Disk) : Prop where
  inv : D'.Inv
  content : D'.content i = D.content i ++ p
  other : ∀ j, j ≠ i → D'.content j = D.content j
  kept : ∀ j, { D'.ino j with size := 0, addrs := fun _ => 0 } =
    { D.ino j with size := 0, addrs := fun _ => 0 }
  free : D'.free.toNat + blocksOf (D.size i) = D.free.toNat + blocksOf (D'.size i)

theorem Disk.setSize_kept (D : Disk) (i j : Ino) (n : Word) :
    { (D.setSize i n).ino j with size := 0, addrs := fun _ => 0 } =
      { D.ino j with size := 0, addrs := fun _ => 0 } := by
  by_cases hj : j = i
  · subst hj
    simp [Disk.setSize]
  · simp [Disk.setSize, Function.update_of_ne hj]

theorem Appended.refl (h : D.Inv) (i : Ino) : Appended i [] D D :=
  ⟨h, (List.append_nil _).symm, fun _ _ => rfl, fun _ => rfl, rfl⟩

theorem Appended.trans {p q : List Byte} {D'' : Disk} (h : Appended i p D D')
    (h' : Appended i q D' D'') : Appended i (p ++ q) D D'' where
  inv := h'.inv
  content := by rw [h'.content, h.content, List.append_assoc]
  other j hj := (h'.other j hj).trans (h.other j hj)
  kept j := (h'.kept j).trans (h.kept j)
  free := by
    have := h.free
    have := h'.free
    omega

theorem Appended.size {p : List Byte} (h : Appended i p D D') :
    D'.size i = D.size i + p.length := by
  rw [← Disk.content_length, h.content, List.length_append, Disk.content_length]

theorem Appended.size_other {p : List Byte} (h : Appended i p D D') {j : Ino} (hj : j ≠ i) :
    D'.size j = D.size j := by
  rw [← Disk.content_length, h.other j hj, Disk.content_length]

namespace Disk

/-- What a pass takes, by the size before it. -/
theorem blocksOf_add {n m : Nat} (hm : 0 < m) (hfit : n % 512 + m ≤ 512) :
    (if n % 512 = 0 then 1 else 0) + (if 12 ≤ n / 512 ∧ n ≤ 6144 then 1 else 0) + blocksOf n =
      blocksOf (n + m) := by
  unfold blocksOf directNum bSize
  split_ifs <;> omega

theorem Inv.missing_eq (h : D.Inv) (i : Ino) {m : Nat} (hm : 0 < m)
    (hfit : D.size i % bSize + m ≤ bSize) (hmax : D.size i < maxFile * bSize) :
    D.missing i (D.size i / bSize) + blocksOf (D.size i) = blocksOf (D.size i + m) := by
  have hused := h.used i (D.size i / bSize) (by
    unfold bSize at hmax ⊢
    omega)
  have hind := h.indirect i
  have h1 : D.val (blockRef i (D.size i / bSize)) = 0 ↔ D.size i % bSize = 0 := by
    rw [← not_iff_not, ← ne_eq, hused]
    unfold bSize
    omega
  have h2 : D.val (.addr i 12) = 0 ↔ D.size i ≤ directNum * bSize := by
    rw [← not_iff_not, ← ne_eq, hind, not_le]
  rw [← blocksOf_add hm hfit]
  unfold missing
  simp only [h1, h2]
  rfl

/-- The disk behind a pass of the loop, with `buf` written to the block. -/
def pass (D : Disk) (i : Ino) (buf : Buf) (m : Nat) : Disk :=
  let E := D.ensure i (D.size i / bSize)
  (E.write (E.val (blockRef i (D.size i / bSize))) buf).setSize i (BitVec.ofNat 32 (D.size i + m))

section Pass
variable {p : List Byte} {buf : Buf} {m : Nat}

theorem pass_blk (D : Disk) (i : Ino) (buf : Buf) (m : Nat) :
    (D.pass i buf m).blk = Function.update (D.ensure i (D.size i / bSize)).blk
      ((D.ensure i (D.size i / bSize)).val (blockRef i (D.size i / bSize))) buf := rfl

theorem pass_free (D : Disk) (i : Ino) (buf : Buf) (m : Nat) :
    (D.pass i buf m).free = (D.ensure i (D.size i / bSize)).free := rfl

theorem pass_val (h : D.Inv) (i : Ino) (buf : Buf) (m : Nat)
    (hroom : D.free.toNat + D.missing i (D.size i / bSize) ≤ fsSize) :
    (D.pass i buf m).val = (D.ensure i (D.size i / bSize)).val := by
  obtain ⟨hext, hgot, -, -⟩ := ensure_spec h.toSound i _ hroom
  unfold pass
  rw [val_setSize, val_write]
  intro j hj hblk
  have hind : (D.ensure i (D.size i / bSize)).val (.addr j 12) ≠ 0 :=
    fun hz => hj (BitVec.eq_of_toNat_eq hz)
  exact blockRef_ne_indirect i j _ (hext.sound.nums.inj _ _ hgot hblk.symm)

theorem setSize_size (D : Disk) (i : Ino) {n : Nat} (hn : n < 2 ^ 32) (j : Ino) :
    (D.setSize i (BitVec.ofNat 32 n)).size j = if j = i then n else D.size j := by
  show (Function.update D.ino i { D.ino i with size := BitVec.ofNat 32 n } j).size.toNat = _
  by_cases hj : j = i
  · subst hj
    rw [if_pos rfl, Function.update_self, BitVec.toNat_ofNat]
    omega
  · rw [if_neg hj, Function.update_of_ne hj]
    rfl

theorem Extends.size {P : Ref → Prop} (h : Extends P D D') (j : Ino) : D'.size j = D.size j := by
  have hkept := congrArg Dinode.size (h.kept j)
  exact congrArg BitVec.toNat hkept

theorem pass_size (h : D.Inv) (i : Ino) (buf : Buf) {m : Nat}
    (hroom : D.free.toNat + D.missing i (D.size i / bSize) ≤ fsSize)
    (hm : D.size i + m ≤ maxFile * bSize) (j : Ino) :
    (D.pass i buf m).size j = if j = i then D.size i + m else D.size j := by
  obtain ⟨hext, -, -, -⟩ := ensure_spec h.toSound i _ hroom
  have hmax : maxFile * bSize < 2 ^ 32 := by decide
  have hsize : ∀ buf', ((D.ensure i (D.size i / bSize)).write
      ((D.ensure i (D.size i / bSize)).val (blockRef i (D.size i / bSize))) buf').size j =
      D.size j := fun _ => hext.size j
  unfold pass
  rw [setSize_size _ _ (by omega), hsize]

/-- The bytes of the files that were there. -/
theorem pass_byte_old (h : D.Inv) (i : Ino) (m : Nat)
    (hroom : D.free.toNat + D.missing i (D.size i / bSize) ≤ fsSize)
    (hmax : D.size i < maxFile * bSize)
    (hbuf : ∀ o, o < D.size i % bSize → buf o = (D.ensure i (D.size i / bSize)).blk
      ((D.ensure i (D.size i / bSize)).val (blockRef i (D.size i / bSize))) o)
    {j : Ino} {o : Nat} (ho : o < D.size j) : (D.pass i buf m).byte j o = D.byte j o := by
  obtain ⟨hext, hgot, -, -⟩ := ensure_spec h.toSound i _ hroom
  have hsize := h.size j
  have hfbn : o / bSize < maxFile := by
    unfold bSize at hsize ⊢
    omega
  have hne : D.val (blockRef j (o / bSize)) ≠ 0 := by
    rw [h.used j _ hfbn]
    unfold bSize
    omega
  have hval := hext.old _ hne
  have hblk := hext.blk _ hne fun i' => blockRef_ne_indirect j i' _
  unfold byte
  rw [pass_val h i buf m hroom, hval, ← hblk, pass_blk]
  by_cases hx : D.val (blockRef j (o / bSize)) =
      (D.ensure i (D.size i / bSize)).val (blockRef i (D.size i / bSize))
  · -- the block written, below the end of the file
    have href := hext.sound.nums.inj _ _ (by rwa [hval]) (hval.trans hx)
    obtain ⟨rfl, hdiv⟩ := blockRef_inj hfbn (by unfold bSize at hmax ⊢; omega) href
    rw [hx, Function.update_self, hbuf]
    unfold bSize at hdiv ⊢
    omega
  · rw [Function.update_of_ne hx]

/-- The bytes behind the end of the file. -/
theorem pass_byte_new (h : D.Inv) (i : Ino)
    (hroom : D.free.toNat + D.missing i (D.size i / bSize) ≤ fsSize)
    (hfit : D.size i % bSize + m ≤ bSize) {k : Nat} (hk : k < m) :
    (D.pass i buf m).byte i (D.size i + k) = buf (D.size i % bSize + k) := by
  have hdiv : (D.size i + k) / bSize = D.size i / bSize := by
    unfold bSize at hfit ⊢
    omega
  have hmod : (D.size i + k) % bSize = D.size i % bSize + k := by
    unfold bSize at hfit ⊢
    omega
  unfold byte
  rw [hdiv, hmod, pass_val h i buf m hroom, pass_blk, Function.update_self]

/-- A block is there if it was, or is the one the pass fills. -/
theorem pass_used (h : D.Inv) (i : Ino) (buf : Buf) (hm : 0 < m)
    (hroom : D.free.toNat + D.missing i (D.size i / bSize) ≤ fsSize)
    (hfit : D.size i % bSize + m ≤ bSize) (hmax : D.size i < maxFile * bSize) (j : Ino)
    {fbn : Nat} (hfbn : fbn < maxFile) :
    (D.pass i buf m).val (blockRef j fbn) ≠ 0 ↔ fbn * bSize < (D.pass i buf m).size j := by
  obtain ⟨hext, hgot, -, -⟩ := ensure_spec h.toSound i _ hroom
  have hbase : D.size i / bSize < maxFile := by
    unfold bSize at hmax ⊢
    omega
  rw [pass_val h i buf m hroom, pass_size h i buf hroom (by unfold bSize maxFile at *; omega)]
  by_cases hj : j = i
  · subst hj
    rw [if_pos rfl]
    constructor
    · intro hne
      rcases hext.new _ hne with hold | hwant | ⟨hind, -⟩
      · have hlt := (h.used j fbn hfbn).mp hold
        omega
      · obtain ⟨-, rfl⟩ := blockRef_inj hfbn hbase hwant
        unfold bSize
        omega
      · exact absurd hind (blockRef_ne_indirect j j fbn)
    · intro hlt
      by_cases hold : fbn * bSize < D.size j
      · exact hext.ne_zero ((h.used j fbn hfbn).mpr hold)
      · have hfbn' : fbn = D.size j / bSize := by
          unfold bSize at hold hlt hfit ⊢
          omega
        rw [hfbn']
        exact hgot
  · rw [if_neg hj, ← h.used j fbn hfbn]
    refine hext.ne_zero_iff ?_
    rintro (hwant | ⟨hind, -⟩)
    · exact hj (blockRef_inj hfbn hbase hwant).1
    · exact blockRef_ne_indirect j i fbn hind

/-- So is the block of the entries. -/
theorem pass_indirect (h : D.Inv) (i : Ino) (buf : Buf) (hm : 0 < m)
    (hroom : D.free.toNat + D.missing i (D.size i / bSize) ≤ fsSize)
    (hfit : D.size i % bSize + m ≤ bSize) (hmax : D.size i < maxFile * bSize) (j : Ino) :
    (D.pass i buf m).val (.addr j 12) ≠ 0 ↔ directNum * bSize < (D.pass i buf m).size j := by
  obtain ⟨hext, -, hgotInd, -⟩ := ensure_spec h.toSound i _ hroom
  rw [pass_val h i buf m hroom, pass_size h i buf hroom (by unfold bSize maxFile at *; omega)]
  by_cases hj : j = i
  · subst hj
    rw [if_pos rfl]
    constructor
    · intro hne
      rcases hext.new _ hne with hold | hwant | ⟨-, hle⟩
      · have hlt := (h.indirect j).mp hold
        omega
      · exact absurd hwant.symm (blockRef_ne_indirect j j _)
      · simp only [directNum, bSize] at hle ⊢
        omega
    · intro hlt
      by_cases hold : directNum * bSize < D.size j
      · exact hext.ne_zero ((h.indirect j).mpr hold)
      · have hle : directNum ≤ D.size j / bSize := by
          simp only [directNum, bSize] at hold hlt hfit ⊢
          omega
        exact hgotInd hle
  · rw [if_neg hj, ← h.indirect j]
    refine hext.ne_zero_iff ?_
    rintro (hwant | ⟨hind, -⟩)
    · exact blockRef_ne_indirect i j _ hwant.symm
    · exact hj (Ref.addr.inj hind).1

theorem pass_inv (h : D.Inv) (i : Ino) (buf : Buf) (hm : 0 < m)
    (hroom : D.free.toNat + D.missing i (D.size i / bSize) ≤ fsSize)
    (hfit : D.size i % bSize + m ≤ bSize) (hmax : D.size i < maxFile * bSize) :
    (D.pass i buf m).Inv := by
  obtain ⟨hext, hgot, -, -⟩ := ensure_spec h.toSound i _ hroom
  have hnums := hext.sound.nums
  refine ⟨⟨?_, ?_, ?_, fun b hb hhi => ?_⟩, fun j => ?_,
    fun j _ => pass_used h i buf hm hroom hfit hmax j, pass_indirect h i buf hm hroom hfit hmax⟩
  · rw [pass_val h i buf m hroom, pass_free]
    exact hnums
  · rw [pass_free]
    exact hext.sound.low
  · rw [pass_free]
    exact hext.sound.high
  · rw [pass_free] at hb
    have hlt := (hnums.lt hgot).2
    rw [pass_blk, Function.update_of_ne (by omega)]
    exact hext.sound.fresh b hb hhi
  · rw [pass_size h i buf hroom (by unfold bSize maxFile at *; omega)]
    have hj := h.size j
    split_ifs
    · unfold bSize at hfit hmax ⊢
      omega
    · exact hj

/-- **A pass of the loop** appends the bytes it writes. -/
theorem pass_appended (h : D.Inv) (i : Ino) (hp : p ≠ [])
    (hfit : D.size i % bSize + p.length ≤ bSize) (hmax : D.size i < maxFile * bSize)
    (hroom : D.free.toNat + blocksOf (D.size i + p.length) ≤ fsSize + blocksOf (D.size i))
    (hold : ∀ o, o < D.size i % bSize → buf o = (D.ensure i (D.size i / bSize)).blk
      ((D.ensure i (D.size i / bSize)).val (blockRef i (D.size i / bSize))) o)
    (hnew : ∀ (k : Nat) (hk : k < p.length), buf (D.size i % bSize + k) = p[k]) :
    Appended i p D (D.pass i buf p.length) := by
  have hm : 0 < p.length := List.length_pos_of_ne_nil hp
  have hmiss := h.missing_eq i hm hfit hmax
  have hroom' : D.free.toNat + D.missing i (D.size i / bSize) ≤ fsSize := by omega
  obtain ⟨hext, -, -, hfree⟩ := ensure_spec h.toSound i _ hroom'
  have hsize := pass_size h i buf hroom' (m := p.length) (by
    unfold bSize maxFile at *
    omega)
  have hbyte : ∀ j, ∀ o < D.size j, (D.pass i buf p.length).byte j o = D.byte j o :=
    fun j o ho => pass_byte_old h i p.length hroom' hmax hold ho
  refine ⟨pass_inv h i buf hm hroom' hfit hmax, ?_, fun j hj => ?_, fun j => ?_, ?_⟩
  · unfold content
    rw [hsize, if_pos rfl, List.range_add, List.map_append]
    congr 1
    · exact List.map_congr_left fun o ho => hbyte i o (List.mem_range.mp ho)
    · apply List.ext_getElem
      · simp
      · intro k hk _
        have hk' : k < p.length := by simpa using hk
        simp only [List.getElem_map, List.getElem_range]
        rw [pass_byte_new h i hroom' hfit hk', hnew k hk']
  · unfold content
    rw [hsize, if_neg hj]
    exact List.map_congr_left fun o ho => hbyte j o (List.mem_range.mp ho)
  · have hkept := congrArg (fun d : Dinode => { d with size := 0 }) (hext.kept j)
    exact (setSize_kept _ i j _).trans hkept
  · rw [hsize, if_pos rfl, pass_free, hfree]
    omega

end Pass

end Disk

end TuixOS.Mkfs
