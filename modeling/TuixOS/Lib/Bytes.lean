import Mathlib.Data.BitVec
import Mathlib.Tactic.IntervalCases

/-!
# Bytes, little-endian words and byte stores

A byte store is a function from addresses to bytes. `load32` and `store32` read and write a
little-endian word of it; the addresses may be machine addresses (`BitVec 32`, where the four
bytes wrap around) or indices of a buffer (`Nat`). `byteOf` and `word32` convert between a word
and its bytes.
-/

namespace Lib

abbrev Byte := BitVec 8
abbrev Half := BitVec 16
abbrev Word := BitVec 32

instance byte_lawfulBEq : LawfulBEq Byte := inferInstance

/-! ## Words and their bytes -/

/-- Byte `k` of a word, the least significant one first. -/
def byteOf {w : Nat} (v : BitVec w) (k : Nat) : Byte := BitVec.ofNat 8 (v.toNat / 2 ^ (8 * k))

def word16 (b0 b1 : Byte) : Half := BitVec.ofNat 16 (b0.toNat + 256 * b1.toNat)

def word32 (b0 b1 b2 b3 : Byte) : Word :=
  BitVec.ofNat 32 (b0.toNat + 256 * b1.toNat + 65536 * b2.toNat + 16777216 * b3.toNat)

@[simp] theorem byteOf_toNat {w : Nat} (v : BitVec w) (k : Nat) :
    (byteOf v k).toNat = v.toNat / 2 ^ (8 * k) % 256 := by
  simp [byteOf]

theorem word16_toNat (b0 b1 : Byte) : (word16 b0 b1).toNat = b0.toNat + 256 * b1.toNat := by
  have := b0.isLt
  have := b1.isLt
  simp only [word16, BitVec.toNat_ofNat]
  omega

theorem word32_toNat (b0 b1 b2 b3 : Byte) : (word32 b0 b1 b2 b3).toNat =
    b0.toNat + 256 * b1.toNat + 65536 * b2.toNat + 16777216 * b3.toNat := by
  have := b0.isLt
  have := b1.isLt
  have := b2.isLt
  have := b3.isLt
  simp only [word32, BitVec.toNat_ofNat]
  omega

@[simp] theorem word16_byteOf (v : Half) : word16 (byteOf v 0) (byteOf v 1) = v := by
  apply BitVec.eq_of_toNat_eq
  have := v.isLt
  rw [word16_toNat]
  simp only [byteOf_toNat, Nat.reduceMul, Nat.reducePow]
  omega

@[simp] theorem word32_byteOf (v : Word) :
    word32 (byteOf v 0) (byteOf v 1) (byteOf v 2) (byteOf v 3) = v := by
  apply BitVec.eq_of_toNat_eq
  have := v.isLt
  rw [word32_toNat]
  simp only [byteOf_toNat, Nat.reduceMul, Nat.reducePow]
  omega

theorem word32_setWidth (b0 b1 b2 b3 : Byte) :
    (word32 b0 b1 b2 b3).setWidth 16 = word16 b0 b1 := by
  apply BitVec.eq_of_toNat_eq
  have := b0.isLt
  have := b1.isLt
  rw [BitVec.toNat_setWidth, word32_toNat, word16_toNat]
  omega

theorem word32_zero : word32 0 0 0 0 = 0 := by decide

/-! ## Byte stores -/

section Store
variable {α : Type} [Add α] [OfNat α 1] [OfNat α 2] [OfNat α 3]

/-- The word whose four bytes start at `a`. -/
def load32 (m : α → Byte) (a : α) : Word := word32 (m a) (m (a + 1)) (m (a + 2)) (m (a + 3))

/-- The half word whose two bytes start at `a`. -/
def load16 (m : α → Byte) (a : α) : Half := word16 (m a) (m (a + 1))

theorem load16_eq (m : α → Byte) (a : α) : load16 m a = (load32 m a).setWidth 16 :=
  (word32_setWidth ..).symm

theorem load32_congr {m m' : α → Byte} {a : α} (h0 : m' a = m a) (h1 : m' (a + 1) = m (a + 1))
    (h2 : m' (a + 2) = m (a + 2)) (h3 : m' (a + 3) = m (a + 3)) : load32 m' a = load32 m a := by
  rw [load32, load32, h0, h1, h2, h3]

variable [DecidableEq α]

def store8 (m : α → Byte) (a : α) (b : Byte) : α → Byte := fun x => if x = a then b else m x

def store32 (m : α → Byte) (a : α) (v : Word) : α → Byte := fun x =>
  if x = a then byteOf v 0
  else if x = a + 1 then byteOf v 1
  else if x = a + 2 then byteOf v 2
  else if x = a + 3 then byteOf v 3
  else m x

def store16 (m : α → Byte) (a : α) (v : Half) : α → Byte := fun x =>
  if x = a then byteOf v 0 else if x = a + 1 then byteOf v 1 else m x

end Store

/-! ### At machine addresses -/

section Addr
variable (m : BitVec 32 → Byte) (a b x : BitVec 32)

theorem store8_same (v : Byte) : store8 m a v a = v := if_pos rfl

theorem store8_ne (v : Byte) (h : x ≠ a) : store8 m a v x = m x := if_neg h

/-- A word store leaves every byte outside its four alone. -/
theorem store32_outside (v : Word) (h : 4 ≤ (x - a).toNat) : store32 m a v x = m x := by
  unfold store32
  rw [if_neg, if_neg, if_neg, if_neg] <;> bv_omega

@[simp] theorem load32_store32 (v : Word) : load32 (store32 m a v) a = v := by
  simp [load32, store32]

theorem load32_store32_ne (v : Word) (h : 4 ≤ (b - a).toNat) (h' : 4 ≤ (a - b).toNat) :
    load32 (store32 m a v) b = load32 m b := by
  apply load32_congr <;> apply store32_outside <;> bv_omega

/-- Aligned words are equal or disjoint. -/
theorem load32_store32_aligned (v : Word) (ha : a.toNat % 4 = 0) (hb : b.toNat % 4 = 0)
    (h : b ≠ a) : load32 (store32 m a v) b = load32 m b := by
  have hne : b.toNat ≠ a.toNat := fun he => h (BitVec.eq_of_toNat_eq he)
  have := a.isLt
  have := b.isLt
  apply load32_store32_ne <;> rw [BitVec.toNat_sub] <;> omega

theorem store16_outside (v : Half) (h : 2 ≤ (x - a).toNat) : store16 m a v x = m x := by
  unfold store16
  rw [if_neg, if_neg] <;> bv_omega

/-- The lower half of a word is written. -/
theorem load32_store16 (v : Half) : load32 (store16 m a v) a = (load32 m a).extractLsb' 16 16 ++ v := by
  have h0 : store16 m a v a = byteOf v 0 := if_pos rfl
  have h1 : store16 m a v (a + 1) = byteOf v 1 := by
    unfold store16
    rw [if_neg (by bv_omega), if_pos rfl]
  have h2 : store16 m a v (a + 2) = m (a + 2) := store16_outside _ _ _ _ (by bv_omega)
  have h3 : store16 m a v (a + 3) = m (a + 3) := store16_outside _ _ _ _ (by bv_omega)
  have := (m a).isLt
  have := (m (a + 1)).isLt
  have := (m (a + 2)).isLt
  have := (m (a + 3)).isLt
  have hv := v.isLt
  apply BitVec.eq_of_toNat_eq
  rw [load32, h0, h1, h2, h3, word32_toNat, BitVec.toNat_append, ← Nat.shiftLeft_add_eq_or_of_lt hv,
    BitVec.extractLsb'_toNat, load32, word32_toNat, byteOf_toNat, byteOf_toNat, Nat.shiftRight_eq_div_pow,
    Nat.shiftLeft_eq]
  omega

/-- A word inside a region that two memories agree on. -/
theorem load32_within {m' : BitVec 32 → Byte} {n : Nat} {k : BitVec 32}
    (h : ∀ x, (x - a).toNat < n → m' x = m x) (hk : k.toNat + 4 ≤ n) :
    load32 m' (a + k) = load32 m (a + k) := by
  apply load32_congr <;> apply h <;> bv_omega

end Addr

/-! ### At buffer indices -/

section Index
variable (m : Nat → Byte) (a b x : Nat)

theorem store32_index (v : Word) : store32 m a v x =
    if a ≤ x ∧ x < a + 4 then byteOf v (x - a) else m x := by
  unfold store32
  rcases Nat.lt_or_ge x a with h | h
  · rw [if_neg, if_neg, if_neg, if_neg, if_neg] <;> omega
  · obtain ⟨k, rfl⟩ := Nat.exists_eq_add_of_le h
    rcases Nat.lt_or_ge k 4 with hk | hk
    · interval_cases k <;> simp
    · rw [if_neg, if_neg, if_neg, if_neg, if_neg] <;> omega

@[simp] theorem load32_store32_index (v : Word) : load32 (store32 m a v) a = v := by
  simp [load32, store32]

theorem load32_store32_index_ne (v : Word) (h : a + 4 ≤ b ∨ b + 4 ≤ a) :
    load32 (store32 m a v) b = load32 m b := by
  apply load32_congr <;> rw [store32_index, if_neg] <;> omega

end Index

end Lib
