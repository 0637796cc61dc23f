import TuixOS.View
import TuixOS.Lib.Fuel
import TuixOS.Lib.Occurrence

/-!
# `strstr` of `lib/string.c`

The inner loop stops at the end of the string in front of it, at the end of `needle`, or at two characters
that differ, and it is at the end of `needle` just when that is a prefix (`strstrMatch_returns`).
-/

namespace TuixOS

open Lib

/-- `while (*h != '\0' && *n != '\0' && *h == *n)`: the pointer `n` behind it. -/
def strstrMatch (v : View) : Nat → Addr → Addr → Res Addr
  | 0, _, _ => .error .diverge
  | fuel + 1, h, n => do
    let c ← v.read h
    if c ≠ 0 then
      let d ← v.read n
      if d ≠ 0 ∧ c = d then strstrMatch v fuel (h + 1) (n + 1) else return n
    else return n

/-- `for (; *haystack != '\0'; haystack++)` -/
def strstrLoop (v : View) (needle : Addr) : Nat → Addr → Res Addr
  | 0, _ => .error .diverge
  | fuel + 1, haystack => do
    let c ← v.read haystack
    if c ≠ 0 then
      let n ← strstrMatch v fuel haystack needle
      let d ← v.read n
      if d = 0 then return haystack else strstrLoop v needle fuel (haystack + 1)
    else return 0

def strstr (v : View) (fuel : Nat) (haystack needle : Addr) : Res Addr := do
  let c ← v.read needle
  if c = 0 then return haystack else strstrLoop v needle fuel haystack

variable {v : View} {haystack needle : Addr} {s t : List Byte}

/-- Behind the inner loop `n` is at the end of `needle` just when `needle` is a prefix. -/
theorem strstrMatch_returns (hs : v.Str haystack s) (ht : v.Str needle t) :
    ∃ n c, Returns (fun fuel => strstrMatch v fuel haystack needle) n ∧ v.read n = .ok c ∧
      (c = 0 ↔ t <+: s) := by
  induction s generalizing haystack needle t with
  | nil =>
    have hret : Returns (fun fuel => strstrMatch v fuel haystack needle) needle := by
      refine Returns.succ (.of_forall fun fuel => ?_)
      rw [strstrMatch, hs.read_nil]
      rfl
    cases t with
    | nil => exact ⟨needle, 0, hret, ht.read_nil, iff_of_true rfl List.nil_prefix⟩
    | cons d t =>
      refine ⟨needle, d, hret, ht.read_cons, iff_of_false ht.ne_zero fun h => ?_⟩
      exact List.cons_ne_nil d t (List.prefix_nil.mp h)
  | cons c s ih =>
    have hc := hs.ne_zero
    cases t with
    | nil =>
      refine ⟨needle, 0, Returns.succ (.of_forall fun fuel => ?_), ht.read_nil,
        iff_of_true rfl List.nil_prefix⟩
      rw [strstrMatch, hs.read_cons, ht.read_nil]
      simp only [ok_bind, ne_eq, hc, not_false_eq_true, not_true_eq_false, false_and,
        if_true, if_false]
      rfl
    | cons d t =>
      have hd := ht.ne_zero
      by_cases hcd : c = d
      · obtain ⟨n, b, hret, hread, hiff⟩ := ih hs.tail ht.tail
        refine ⟨n, b, Returns.succ ?_, hread, ?_⟩
        · simp only [strstrMatch, hs.read_cons, ht.read_cons, ok_bind, ne_eq, hd, hcd,
            not_false_eq_true, and_self, if_true]
          exact hret
        · rw [hiff, List.cons_prefix_cons]
          exact (and_iff_right hcd.symm).symm
      · refine ⟨needle, d, Returns.succ (.of_forall fun fuel => ?_), ht.read_cons, ?_⟩
        · rw [strstrMatch, hs.read_cons, ht.read_cons]
          simp only [ok_bind, ne_eq, hc, hcd, not_false_eq_true, and_false, if_true, if_false]
          rfl
        · rw [List.cons_prefix_cons]
          exact iff_of_false hd fun h => hcd h.1.symm

/-- The outer loop, for a `needle` that is not empty. -/
theorem strstrLoop_returns (hs : v.Str haystack s) (ht : v.Str needle t) (hne : t ≠ []) :
    ∃ r, Returns (fun fuel => strstrLoop v needle fuel haystack) r ∧
      ((∃ i, IsLeast (occurrences s t) i ∧ r = haystack + BitVec.ofNat 32 i) ∨
        occurrences s t = ∅ ∧ r = 0) := by
  induction s generalizing haystack with
  | nil =>
    refine ⟨0, Returns.succ (.of_forall fun fuel => ?_), .inr ⟨occurrences_nil hne, rfl⟩⟩
    rw [strstrLoop, hs.read_nil]
    rfl
  | cons c s ih =>
    have hc := hs.ne_zero
    obtain ⟨n, d, hmatch, hread, hiff⟩ := strstrMatch_returns hs ht
    have hstep : ∀ fuel, strstrLoop v needle (fuel + 1) haystack =
        strstrMatch v fuel haystack needle >>= fun n => v.read n >>= fun d =>
          if d = 0 then .ok haystack else strstrLoop v needle fuel (haystack + 1) := by
      intro fuel
      rw [strstrLoop, hs.read_cons]
      simp only [ok_bind, ne_eq, hc, not_false_eq_true, if_true]
      rfl
    by_cases hd : d = 0
    · refine ⟨haystack, Returns.succ ?_,
        .inl ⟨0, isLeast_occurrences_zero (hiff.mp hd), (BitVec.add_zero haystack).symm⟩⟩
      simp only [hstep]
      refine hmatch.bind (.of_forall fun fuel => ?_)
      rw [hread, hd]
      rfl
    · have hnot : ¬t <+: c :: s := fun h => hd (hiff.mpr h)
      obtain ⟨r, hret, hfound⟩ := ih hs.tail
      refine ⟨r, Returns.succ ?_, ?_⟩
      · simp only [hstep]
        refine hmatch.bind ?_
        simp only [hread, ok_bind, hd, if_false]
        exact hret
      · rcases hfound with ⟨i, hleast, hr⟩ | ⟨hempty, hr⟩
        · refine .inl ⟨i + 1, isLeast_occurrences_succ hnot hleast, ?_⟩
          rw [hr, succ_add_ofNat]
        · exact .inr ⟨occurrences_cons_eq_empty hnot hempty, hr⟩

/-- **`strstr` finds the first occurrence.** In every view of two strings it returns: the address of the
first occurrence of `needle` in `haystack`, null just when there is none, and `haystack` for the empty
`needle`. The string at `haystack` is not at null, and does not run around the end of memory. -/
theorem strstr_first (hs : v.Str haystack s) (ht : v.Str needle t) (hnull : haystack ≠ 0)
    (hwrap : haystack.toNat + s.length < 2 ^ 32) :
    ∃ r, Returns (fun fuel => strstr v fuel haystack needle) r ∧
      (∀ i, IsLeast (occurrences s t) i → r = haystack + BitVec.ofNat 32 i) ∧
      (r = 0 ↔ occurrences s t = ∅) ∧ (t = [] → r = haystack) := by
  cases t with
  | nil =>
    have hzero : IsLeast (occurrences s []) 0 := isLeast_occurrences_zero List.nil_prefix
    refine ⟨haystack, .of_forall fun fuel => ?_, fun i hi => ?_, ?_, fun _ => rfl⟩
    · rw [strstr, ht.read_nil]
      rfl
    · rw [hi.unique hzero]
      exact (BitVec.add_zero haystack).symm
    · exact iff_of_false hnull (Set.nonempty_iff_ne_empty.mp hzero.nonempty)
  | cons d t =>
    have hd := ht.ne_zero
    obtain ⟨r, hret, hfound⟩ := strstrLoop_returns hs ht (List.cons_ne_nil d t)
    have hstep : ∀ fuel, strstr v fuel haystack needle = strstrLoop v needle fuel haystack := by
      intro fuel
      rw [strstr, ht.read_cons]
      exact if_neg hd
    refine ⟨r, ?_, ?_, ?_, fun h => absurd h (List.cons_ne_nil d t)⟩
    · simp only [hstep]
      exact hret
    · intro i hi
      rcases hfound with ⟨j, hj, hr⟩ | ⟨hempty, -⟩
      · rw [hr, hi.unique hj]
      · exact absurd hempty (Set.nonempty_iff_ne_empty.mp hi.nonempty)
    · rcases hfound with ⟨j, hj, hr⟩ | ⟨hempty, hr⟩
      · refine iff_of_false (fun h0 => ?_) (Set.nonempty_iff_ne_empty.mp hj.nonempty)
        have hlt := lt_length_of_mem_occurrences (List.cons_ne_nil d t) hj.1
        have hnat := add_ofNat_toNat haystack (i := j) (by omega)
        have hzero : (0 : Addr).toNat = 0 := rfl
        rw [← hr, h0, hzero] at hnat
        exact hnull (BitVec.eq_of_toNat_eq (by rw [hzero]; omega))
      · exact iff_of_true hr hempty

/-- "ab" in "aab". -/
theorem strstr_first_one : ∃ r,
    Returns (fun fuel => strstr (View.texts [0x61, 0x61, 0x62] [0x61, 0x62]) fuel 0x1000 0x2000) r ∧
      r = 0x1001 := by
  have hs : (View.texts [0x61, 0x61, 0x62] [0x61, 0x62]).Str 0x1000 [0x61, 0x61, 0x62] :=
    ⟨by decide, by decide⟩
  have ht : (View.texts [0x61, 0x61, 0x62] [0x61, 0x62]).Str 0x2000 [0x61, 0x62] :=
    ⟨by decide, by decide⟩
  obtain ⟨r, hret, hfirst, -⟩ := strstr_first hs ht (by decide) (by decide)
  exact ⟨r, hret, hfirst 1 (isLeast_occurrences_succ (by decide) (isLeast_occurrences_zero (by decide)))⟩

end TuixOS
