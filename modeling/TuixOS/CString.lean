import TuixOS.Mmu

/-!
# `memset`, `memcpy` and `memmove` of `lib/string.c`

Each returns the pointer it returns in C and the new memory. The results are stated at every
address (`memset_apply`, `memmove_apply`), so they are frame rules as well.
-/

namespace TuixOS

open Lib

/-- The loop of `memset`, with `n` bytes to go at `temp`. -/
def memsetLoop (val : Byte) : Nat → Addr → Mem → Mem
  | 0, _, m => m
  | n + 1, temp, m => memsetLoop val n (temp + 1) (store8 m temp val)

def memset (dst : Addr) (val : Word) (count : Word) (m : Mem) : Addr × Mem :=
  if dst = 0 then (0, m) else (dst, memsetLoop (val.setWidth 8) count.toNat dst m)

/-- `while (count--) *d++ = *s++;` -/
def copyUp : Nat → Addr → Addr → Mem → Mem
  | 0, _, _, m => m
  | n + 1, d, s, m => copyUp n (d + 1) (s + 1) (store8 m d (m s))

/-- `while (count--) *--d = *--s;` -/
def copyDown : Nat → Addr → Addr → Mem → Mem
  | 0, _, _, m => m
  | n + 1, d, s, m => copyDown n (d - 1) (s - 1) (store8 m (d - 1) (m (s - 1)))

def memcpy (dst src : Addr) (count : Word) (m : Mem) : Addr × Mem :=
  if dst = 0 ∨ src = 0 then (0, m)
  else if count = 0 then (dst, m)
  else (dst, copyUp count.toNat dst src m)

def memmove (dst src : Addr) (count : Word) (m : Mem) : Addr × Mem :=
  if dst = 0 ∨ src = 0 then (0, m)
  else if count = 0 ∨ dst = src then (dst, m)
  else if dst < src then (dst, copyUp count.toNat dst src m)
  else (dst, copyDown count.toNat (dst + count) (src + count) m)

theorem memsetLoop_apply (val : Byte) (x : Addr) : ∀ (n : Nat) (t : Addr) (m : Mem), n ≤ 2 ^ 32 →
    memsetLoop val n t m x = if (x - t).toNat < n then val else m x
  | 0, _, _, _ => rfl
  | n + 1, t, m, hn => by
    rw [memsetLoop, memsetLoop_apply val x n (t + 1) _ (by omega)]
    by_cases hx : x = t
    · subst hx
      rw [store8_same, ite_self, if_pos (by bv_omega)]
    · rw [store8_ne _ _ _ _ hx]
      congr 1
      apply propext
      bv_omega

/-- `memset` sets exactly the `count` bytes from `dst` on. -/
theorem memset_apply {dst : Addr} (hdst : dst ≠ 0) (val count : Word) (m : Mem) (x : Addr) :
    (memset dst val count m).2 x =
      if (x - dst).toNat < count.toNat then val.setWidth 8 else m x := by
  rw [memset, if_neg hdst]
  exact memsetLoop_apply _ x _ dst m (by have := count.isLt; omega)

/-- Regions whose upward copy reads each byte before it overwrites it: the target starts not above the
source, or behind its end. -/
def CopiesUp (d s : Addr) (n : Nat) : Prop := d.toNat ≤ s.toNat ∨ s.toNat + n ≤ d.toNat

theorem copyUp_apply (x : Addr) : ∀ (n : Nat) (d s : Addr) (m : Mem), CopiesUp d s n →
    d.toNat + n ≤ 2 ^ 32 → s.toNat + n ≤ 2 ^ 32 → copyUp n d s m x =
      if d.toNat ≤ x.toNat ∧ x.toNat < d.toNat + n then m (s + (x - d)) else m x
  | 0, d, s, m, _, _, _ => by
    rw [copyUp, if_neg (by omega)]
  | n + 1, d, s, m, hup, hd, hs => by
    unfold CopiesUp at hup
    rcases Nat.eq_zero_or_pos n with rfl | hn
    · rw [copyUp, copyUp]
      by_cases hx : x = d
      · subst hx
        rw [store8_same, if_pos (by omega), BitVec.sub_self, BitVec.add_zero]
      · have hne : x.toNat ≠ d.toNat := fun he => hx (BitVec.eq_of_toNat_eq he)
        rw [store8_ne _ _ _ _ hx, if_neg (by omega)]
    · have hd1 : (d + 1).toNat = d.toNat + 1 := by bv_omega
      have hs1 : (s + 1).toNat = s.toNat + 1 := by bv_omega
      have hup1 : CopiesUp (d + 1) (s + 1) n := by
        unfold CopiesUp
        omega
      rw [copyUp, copyUp_apply x n (d + 1) (s + 1) _ hup1 (by omega) (by omega), hd1]
      by_cases hx : x = d
      · subst hx
        rw [if_neg (by omega), if_pos (by omega), store8_same, BitVec.sub_self, BitVec.add_zero]
      · have hne : x.toNat ≠ d.toNat := fun he => hx (BitVec.eq_of_toNat_eq he)
        rw [store8_ne _ _ x _ hx]
        by_cases hin : d.toNat + 1 ≤ x.toNat ∧ x.toNat < d.toNat + 1 + n
        · have hsrc : s + 1 + (x - (d + 1)) = s + (x - d) := by bv_omega
          have hsne : s + (x - d) ≠ d := by bv_omega
          rw [if_pos hin, if_pos (by omega), hsrc, store8_ne _ _ _ _ hsne]
        · rw [if_neg hin, if_neg (by omega)]

/-- The downward copy, from the ends, for a target not below the source. -/
theorem copyDown_apply (x : Addr) : ∀ (n : Nat) (d s : Addr) (m : Mem), s.toNat ≤ d.toNat →
    d.toNat + n ≤ 2 ^ 32 → copyDown n (d + BitVec.ofNat 32 n) (s + BitVec.ofNat 32 n) m x =
      if d.toNat ≤ x.toNat ∧ x.toNat < d.toNat + n then m (s + (x - d)) else m x
  | 0, d, s, m, _, _ => by
    rw [copyDown, if_neg (by omega)]
  | n + 1, d, s, m, hds, hd => by
    have hpred : ∀ a : Addr, a + BitVec.ofNat 32 (n + 1) - 1 = a + BitVec.ofNat 32 n := by
      intro a
      bv_omega
    have hlast : (d + BitVec.ofNat 32 n).toNat = d.toNat + n := by
      rw [BitVec.toNat_add, BitVec.toNat_ofNat]
      omega
    rw [copyDown, hpred, hpred, copyDown_apply x n d s _ hds (by omega)]
    by_cases hx : x = d + BitVec.ofNat 32 n
    · have hsub : x - d = BitVec.ofNat 32 n := by bv_omega
      rw [if_neg (by rw [hx, hlast]; omega), if_pos (by rw [hx, hlast]; omega), hsub, ← hx,
        store8_same]
    · have hne : x.toNat ≠ d.toNat + n := fun he => hx (BitVec.eq_of_toNat_eq (he.trans hlast.symm))
      rw [store8_ne _ _ x _ hx]
      by_cases hin : d.toNat ≤ x.toNat ∧ x.toNat < d.toNat + n
      · have hsne : s + (x - d) ≠ d + BitVec.ofNat 32 n := by bv_omega
        rw [if_pos hin, if_pos (by omega), store8_ne _ _ _ _ hsne]
      · rw [if_neg hin, if_neg (by omega)]

theorem copyUp_outside (x : Addr) : ∀ (n : Nat) (d s : Addr) (m : Mem), n ≤ (x - d).toNat →
    copyUp n d s m x = m x
  | 0, _, _, _, _ => rfl
  | n + 1, d, s, m, hx => by
    have hne : x ≠ d := by
      rintro rfl
      simp at hx
    rw [copyUp, copyUp_outside x n (d + 1) (s + 1) _ (by bv_omega), store8_ne _ _ _ _ hne]

theorem copyDown_outside (x : Addr) : ∀ (n : Nat) (d s : Addr) (m : Mem), n ≤ (x - d).toNat →
    copyDown n (d + BitVec.ofNat 32 n) s m x = m x
  | 0, _, _, _, _ => rfl
  | n + 1, d, s, m, hx => by
    have hpred : d + BitVec.ofNat 32 (n + 1) - 1 = d + BitVec.ofNat 32 n := by bv_omega
    have hne : x ≠ d + BitVec.ofNat 32 n := by
      have := (x - d).isLt
      rintro rfl
      rw [BitVec.add_comm, BitVec.add_sub_cancel, BitVec.toNat_ofNat] at hx
      omega
    rw [copyDown, hpred, copyDown_outside x n d (s - 1) _ (by omega), store8_ne _ _ _ _ hne]

/-- Whatever the source, only the `count` bytes from `dst` on are written. -/
theorem memmove_outside (dst src : Addr) {count : Word} (m : Mem) {x : Addr}
    (hx : count.toNat ≤ (x - dst).toNat) : (memmove dst src count m).2 x = m x := by
  have hdown := copyDown_outside x count.toNat dst (src + count) m hx
  rw [BitVec.ofNat_toNat, BitVec.setWidth_eq] at hdown
  unfold memmove
  split_ifs
  · rfl
  · rfl
  · exact copyUp_outside x _ dst src m hx
  · exact hdown

/-- `memmove` copies the old bytes of the source for every overlap, and writes nothing else. -/
theorem memmove_apply {dst src : Addr} (hdst : dst ≠ 0) (hsrc : src ≠ 0) (count : Word)
    (hd : dst.toNat + count.toNat ≤ 2 ^ 32) (hs : src.toNat + count.toNat ≤ 2 ^ 32) (m : Mem)
    (x : Addr) : (memmove dst src count m).2 x =
      if dst.toNat ≤ x.toNat ∧ x.toNat < dst.toNat + count.toNat then m (src + (x - dst))
      else m x := by
  rw [memmove, if_neg (by simp only [hdst, hsrc, or_self, not_false_eq_true])]
  by_cases hskip : count = 0 ∨ dst = src
  · rw [if_pos hskip]
    rcases hskip with rfl | rfl
    · rw [if_neg (by simp only [BitVec.ofNat_eq_ofNat, BitVec.toNat_ofNat]; omega)]
    · rw [BitVec.add_comm, BitVec.sub_add_cancel, ite_self]
  · rw [if_neg hskip]
    by_cases hlt : dst < src
    · rw [if_pos hlt]
      exact copyUp_apply x _ dst src m (Or.inl (Nat.le_of_lt hlt)) hd hs
    · have hle : src.toNat ≤ dst.toNat := Nat.le_of_not_lt hlt
      have hdown := copyDown_apply x count.toNat dst src m hle hd
      rw [BitVec.ofNat_toNat, BitVec.setWidth_eq] at hdown
      rw [if_neg hlt]
      exact hdown

theorem memcpy_apply {dst src : Addr} (hdst : dst ≠ 0) (hsrc : src ≠ 0) (count : Word)
    (hup : CopiesUp dst src count.toNat) (hd : dst.toNat + count.toNat ≤ 2 ^ 32)
    (hs : src.toNat + count.toNat ≤ 2 ^ 32) (m : Mem) (x : Addr) :
    (memcpy dst src count m).2 x =
      if dst.toNat ≤ x.toNat ∧ x.toNat < dst.toNat + count.toNat then m (src + (x - dst))
      else m x := by
  rw [memcpy, if_neg (by simp only [hdst, hsrc, or_self, not_false_eq_true])]
  by_cases h0 : count = 0
  · subst h0
    rw [if_pos rfl, if_neg (by simp only [BitVec.ofNat_eq_ofNat, BitVec.toNat_ofNat]; omega)]
  · rw [if_neg h0]
    exact copyUp_apply x _ dst src m hup hd hs

/-- **Overlapping copies.** `memmove` leaves the old bytes of the source in the target, however the two
overlap, and every other byte as it was; `memcpy` leaves the same memory when the target starts not
above the source or the two are apart. -/
theorem memmove_overlap_safe {dst src : Addr} (hdst : dst ≠ 0) (hsrc : src ≠ 0) (count : Word)
    (hd : dst.toNat + count.toNat ≤ 2 ^ 32) (hs : src.toNat + count.toNat ≤ 2 ^ 32) (m : Mem) :
    (∀ i < count.toNat, (memmove dst src count m).2 (dst + BitVec.ofNat 32 i) =
      m (src + BitVec.ofNat 32 i)) ∧
    (∀ x, (∀ i < count.toNat, x ≠ dst + BitVec.ofNat 32 i) → (memmove dst src count m).2 x = m x) ∧
    (dst ≤ src ∨ dst.toNat + count.toNat ≤ src.toNat ∨ src.toNat + count.toNat ≤ dst.toNat →
      (memcpy dst src count m).2 = (memmove dst src count m).2) := by
  refine ⟨fun i hi => ?_, fun x hx => ?_, fun hway => ?_⟩
  · have hlt := count.isLt
    have haddr : (dst + BitVec.ofNat 32 i).toNat = dst.toNat + i := by
      rw [BitVec.toNat_add, BitVec.toNat_ofNat]
      omega
    rw [memmove_apply hdst hsrc count hd hs, haddr, if_pos (by omega), BitVec.add_comm dst,
      BitVec.add_sub_cancel]
  · rw [memmove_apply hdst hsrc count hd hs, if_neg]
    rintro ⟨hlow, hhigh⟩
    refine hx (x.toNat - dst.toNat) (by omega) (BitVec.eq_of_toNat_eq ?_)
    rw [BitVec.toNat_add, BitVec.toNat_ofNat]
    omega
  · have hup : CopiesUp dst src count.toNat := by
      rcases hway with hle | hapart | hapart
      · exact Or.inl hle
      · exact Or.inl (Nat.le_of_add_right_le hapart)
      · exact Or.inr hapart
    funext x
    rw [memmove_apply hdst hsrc count hd hs, memcpy_apply hdst hsrc count hup hd hs]

/-- Three bytes moved up by one and down by one, over themselves. -/
theorem memmove_overlap_safe_three :
    (memmove 0x1001 0x1000 3 (fun x => x.setWidth 8)).2 (0x1001 + BitVec.ofNat 32 1) = 0x01 ∧
      (memcpy 0x1000 0x1001 3 (fun x => x.setWidth 8)).2 =
        (memmove 0x1000 0x1001 3 (fun x => x.setWidth 8)).2 :=
  ⟨(memmove_overlap_safe (by decide) (by decide) 3 (by decide) (by decide) _).1 1 (by decide),
    (memmove_overlap_safe (by decide) (by decide) 3 (by decide) (by decide) _).2.2
      (Or.inl (by decide))⟩

end TuixOS
