import TuixOS.View
import TuixOS.Lib.Fuel
import TuixOS.Lib.Occurrence

/-!
# `strchr` and `strrchr` of `lib/string.c`

The one ends at the first occurrence of the character, the other keeps the last one it has come by. Both look at
the NUL of the string too, behind their loops, so it is found like any other character.
-/

namespace TuixOS

open Lib

/-- The loop of `strchr` and its last line. -/
def strchrLoop (v : View) (c : Byte) : Nat → Addr → Res Addr
  | 0, _ => .error .diverge
  | fuel + 1, s => do
    let d ← v.read s
    if d ≠ 0 then
      if d = c then return s else strchrLoop v c fuel (s + 1)
    else return if d = c then s else 0

def strchr (v : View) (fuel : Nat) (s : Addr) (c : Word) : Res Addr := strchrLoop v (c.setWidth 8) fuel s

/-- The loop of `strrchr` and its last line. -/
def strrchrLoop (v : View) (c : Byte) : Nat → Addr → Addr → Res Addr
  | 0, _, _ => .error .diverge
  | fuel + 1, s, last => do
    let d ← v.read s
    if d ≠ 0 then
      let last := if d = c then s else last
      strrchrLoop v c fuel (s + 1) last
    else return if d = c then s else last

def strrchr (v : View) (fuel : Nat) (s : Addr) (c : Word) : Res Addr :=
  strrchrLoop v (c.setWidth 8) fuel s 0

/-- Where a string has the character, its NUL included. -/
def charsAt (s : List Byte) (c : Byte) : Set Nat := occurrences (s ++ [0]) [c]

variable {v : View} {a : Addr} {s : List Byte} {c d : Byte} {i : Nat}

theorem le_length_of_mem_charsAt (h : i ∈ charsAt s c) : i ≤ s.length := by
  have hlt := lt_length_of_mem_occurrences (List.cons_ne_nil c []) h
  rw [List.length_append, List.length_singleton] at hlt
  exact Nat.le_of_lt_succ hlt

theorem charsAt_nil : charsAt [] c = if 0 = c then {0} else ∅ := by
  ext i
  cases i with
  | zero =>
    rw [charsAt, List.nil_append, zero_mem_occurrences, singleton_prefix_cons_iff]
    split_ifs with h
    · exact iff_of_true h rfl
    · exact iff_of_false h (Set.notMem_empty 0)
  | succ i =>
    rw [charsAt, List.nil_append, succ_mem_occurrences, occurrences_nil (List.cons_ne_nil c [])]
    refine iff_of_false (Set.notMem_empty i) ?_
    split_ifs
    · exact Nat.succ_ne_zero i
    · exact Set.notMem_empty _

/-! ## The loops -/

theorem strchrLoop_returns (h : v.Str a s) (c : Byte) :
    ∃ r, Returns (fun fuel => strchrLoop v c fuel a) r ∧
      ((∃ i, IsLeast (charsAt s c) i ∧ r = a + BitVec.ofNat 32 i) ∨ charsAt s c = ∅ ∧ r = 0) := by
  induction s generalizing a with
  | nil =>
    refine ⟨if 0 = c then a else 0, Returns.succ (.of_forall fun fuel => ?_), ?_⟩
    · rw [strchrLoop, h.read_nil, ok_bind, if_neg (not_not.mpr rfl)]
      rfl
    · rw [charsAt_nil]
      split_ifs
      · exact Or.inl ⟨0, isLeast_singleton, (add_ofNat_zero a).symm⟩
      · exact Or.inr ⟨rfl, rfl⟩
  | cons d s ih =>
    by_cases hd : d = c
    · refine ⟨a, Returns.succ (.of_forall fun fuel => ?_), Or.inl ⟨0, ?_, (add_ofNat_zero a).symm⟩⟩
      · rw [strchrLoop, h.read_cons, ok_bind, if_pos h.ne_zero, if_pos hd]
        rfl
      · exact isLeast_occurrences_zero (singleton_prefix_cons_iff.mpr hd)
    · have hnot : ¬[c] <+: d :: (s ++ [0]) := fun hpre => hd (singleton_prefix_cons_iff.mp hpre)
      obtain ⟨r, hret, hfound⟩ := ih h.tail
      refine ⟨r, Returns.succ ?_, ?_⟩
      · simp only [strchrLoop, h.read_cons, ok_bind, ne_eq, h.ne_zero, hd, not_false_eq_true, if_true,
          if_false]
        exact hret
      · rcases hfound with ⟨i, hleast, hr⟩ | ⟨hempty, hr⟩
        · refine Or.inl ⟨i + 1, isLeast_occurrences_succ hnot hleast, ?_⟩
          rw [hr, succ_add_ofNat]
        · exact Or.inr ⟨occurrences_cons_eq_empty hnot hempty, hr⟩

/-- `last` is what is left when there is no occurrence from here on. -/
theorem strrchrLoop_returns (h : v.Str a s) (c : Byte) (last : Addr) :
    ∃ r, Returns (fun fuel => strrchrLoop v c fuel a last) r ∧
      ((∃ i, IsGreatest (charsAt s c) i ∧ r = a + BitVec.ofNat 32 i) ∨ charsAt s c = ∅ ∧ r = last) := by
  induction s generalizing a last with
  | nil =>
    refine ⟨if 0 = c then a else last, Returns.succ (.of_forall fun fuel => ?_), ?_⟩
    · rw [strrchrLoop, h.read_nil, ok_bind, if_neg (not_not.mpr rfl)]
      rfl
    · rw [charsAt_nil]
      split_ifs
      · exact Or.inl ⟨0, isGreatest_singleton, (add_ofNat_zero a).symm⟩
      · exact Or.inr ⟨rfl, rfl⟩
  | cons d s ih =>
    obtain ⟨r, hret, hfound⟩ := ih h.tail (if d = c then a else last)
    refine ⟨r, Returns.succ ?_, ?_⟩
    · simp only [strrchrLoop, h.read_cons, ok_bind, ne_eq, h.ne_zero, not_false_eq_true, if_true]
      exact hret
    · rcases hfound with ⟨i, hgreatest, hr⟩ | ⟨hempty, hr⟩
      · refine Or.inl ⟨i + 1, isGreatest_occurrences_succ hgreatest, ?_⟩
        rw [hr, succ_add_ofNat]
      · by_cases hd : d = c
        · rw [if_pos hd] at hr
          refine Or.inl ⟨0, ?_, hr.trans (add_ofNat_zero a).symm⟩
          exact isGreatest_occurrences_zero (singleton_prefix_cons_iff.mpr hd) hempty
        · rw [if_neg hd] at hr
          have hnot : ¬[c] <+: d :: (s ++ [0]) := fun hpre => hd (singleton_prefix_cons_iff.mp hpre)
          exact Or.inr ⟨occurrences_cons_eq_empty hnot hempty, hr⟩

/-- No byte of a string that neither is at null nor runs around the end of memory is at null. -/
theorem char_ne_null (hnull : a ≠ 0) (hwrap : a.toNat + s.length < 2 ^ 32) (hi : i ∈ charsAt s c) :
    a + BitVec.ofNat 32 i ≠ 0 := by
  have hle := le_length_of_mem_charsAt hi
  intro h0
  have hnat := congrArg BitVec.toNat h0
  have hzero : (0 : Addr).toNat = 0 := rfl
  rw [add_ofNat_toNat a (by omega), hzero] at hnat
  exact hnull (BitVec.eq_of_toNat_eq (by omega))

/-- **`strchr` and `strrchr`** find the first and the last occurrence of the character `(char)c`, in every view
of the string, and the NUL for `c = 0`. Both return null just when there is none, and they return the same
just when there is no more than one. -/
theorem strchr_strrchr (h : v.Str a s) (hnull : a ≠ 0) (hwrap : a.toNat + s.length < 2 ^ 32) (c : Word) :
    ∃ r r', Returns (fun fuel => strchr v fuel a c) r ∧ Returns (fun fuel => strrchr v fuel a c) r' ∧
      (∀ i, IsLeast (charsAt s (c.setWidth 8)) i → r = a + BitVec.ofNat 32 i) ∧
      (∀ i, IsGreatest (charsAt s (c.setWidth 8)) i → r' = a + BitVec.ofNat 32 i) ∧
      (r = 0 ↔ charsAt s (c.setWidth 8) = ∅) ∧ (r' = 0 ↔ charsAt s (c.setWidth 8) = ∅) ∧
      (r = r' ↔ (charsAt s (c.setWidth 8)).Subsingleton) := by
  generalize hc : c.setWidth 8 = b
  obtain ⟨r, hret, hfound⟩ := strchrLoop_returns h b
  obtain ⟨r', hret', hfound'⟩ := strrchrLoop_returns h b 0
  simp only [strchr, strrchr, hc]
  refine ⟨r, r', hret, hret', ?_⟩
  rcases hfound with ⟨i, hi, rfl⟩ | ⟨hempty, rfl⟩
  · rcases hfound' with ⟨k, hk, rfl⟩ | ⟨hempty, -⟩
    · have hne := Set.nonempty_iff_ne_empty.mp hi.nonempty
      refine ⟨fun j hj => by rw [hj.unique hi], fun j hj => by rw [hj.unique hk],
        iff_of_false (char_ne_null hnull hwrap hi.1) hne,
        iff_of_false (char_ne_null hnull hwrap hk.1) hne, fun heq => ?_, fun hsub => ?_⟩
      · -- the first and the last are the same, so all are
        have hile := le_length_of_mem_charsAt hi.1
        have hkle := le_length_of_mem_charsAt hk.1
        have hik : i = k := by
          by_contra hne'
          exact add_ofNat_ne a (by omega) (by omega) hne' heq
        subst hik
        exact fun x hx y hy => Nat.le_antisymm ((hk.2 hx).trans (hi.2 hy)) ((hk.2 hy).trans (hi.2 hx))
      · rw [hsub hi.1 hk.1]
    · exact absurd hempty (Set.nonempty_iff_ne_empty.mp hi.nonempty)
  · rcases hfound' with ⟨k, hk, -⟩ | ⟨-, rfl⟩
    · exact absurd hempty (Set.nonempty_iff_ne_empty.mp hk.nonempty)
    · rw [hempty]
      refine ⟨fun j hj => absurd hj.1 (Set.notMem_empty j), fun j hj => absurd hj.1 (Set.notMem_empty j),
        iff_of_true rfl rfl, iff_of_true rfl rfl, iff_of_true rfl Set.subsingleton_empty⟩

/-- The two slashes of "/a/b". -/
theorem strchr_strrchr_path : ∃ r r',
    Returns (fun fuel => strchr (View.texts [0x2F, 0x61, 0x2F, 0x62] []) fuel 0x1000 0x2F) r ∧
      Returns (fun fuel => strrchr (View.texts [0x2F, 0x61, 0x2F, 0x62] []) fuel 0x1000 0x2F) r' ∧
      r = 0x1000 ∧ r' = 0x1002 := by
  have hs : (View.texts [0x2F, 0x61, 0x2F, 0x62] []).Str 0x1000 [0x2F, 0x61, 0x2F, 0x62] :=
    ⟨by decide, by decide⟩
  obtain ⟨r, r', hret, hret', hfirst, hlast, -⟩ := strchr_strrchr hs (by decide) (by decide) 0x2F
  refine ⟨r, r', hret, hret', hfirst 0 ?_, hlast 2 ?_⟩
  · exact isLeast_occurrences_zero (by decide)
  · refine isGreatest_occurrences_succ (isGreatest_occurrences_succ (isGreatest_occurrences_zero (by decide) ?_))
    refine occurrences_cons_eq_empty (by decide) (occurrences_cons_eq_empty (by decide) ?_)
    exact occurrences_nil (List.cons_ne_nil _ _)

end TuixOS
