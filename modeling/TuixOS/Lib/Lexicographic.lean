import Mathlib.Data.List.Basic

/-!
# Comparing lists that end in a least element

`compare` on lists goes by the first place where they differ. Two lists of elements above `z` compare as
their heads do where they part (`compare_headD`), a list's head being `z` when there is none; `z` behind
both of them changes nothing (`compare_terminated`).
-/

namespace Lib

variable {α : Type} [Ord α] {z : α} {s t : List α} {n : Nat}

theorem compare_cons_self [Std.ReflOrd α] (c : α) (s t : List α) :
    compare (c :: s) (c :: t) = compare s t := by
  have hc : compare c c = .eq := Std.ReflCmp.compare_self
  rw [List.compare_cons_cons, hc, Ordering.eq_then]

/-- What reaches behind the end of the shorter list decides. -/
theorem compare_take (h : min s.length t.length < n) :
    compare (s.take n) (t.take n) = compare s t := by
  induction s generalizing t n with
  | nil =>
    cases t with
    | nil => rw [List.take_nil]
    | cons d t =>
      obtain ⟨n, rfl⟩ := Nat.exists_eq_add_of_le' (Nat.zero_lt_of_lt h)
      rfl
  | cons c s ih =>
    obtain ⟨n, rfl⟩ := Nat.exists_eq_add_of_le' (Nat.zero_lt_of_lt h)
    cases t with
    | nil => rfl
    | cons d t =>
      simp only [List.length_cons] at h
      rw [List.take_succ_cons, List.take_succ_cons, List.compare_cons_cons, List.compare_cons_cons,
        ih (by omega)]

section Least
variable [Std.TransOrd α] [Std.LawfulEqOrd α] (hs : ∀ c ∈ s, compare z c = .lt)
  (ht : ∀ d ∈ t, compare z d = .lt)
include hs ht

/-- Where two lists part, or have no more than a head, their heads decide. -/
theorem compare_headD
    (h : s.headD z = z ∨ s.headD z ≠ t.headD z ∨ s.length ≤ 1 ∧ t.length ≤ 1) :
    compare (s.headD z) (t.headD z) = compare s t := by
  cases s with
  | nil =>
    cases t with
    | nil => exact Std.ReflCmp.compare_self
    | cons d t => exact ht d List.mem_cons_self
  | cons c s =>
    have hc := hs c List.mem_cons_self
    have hne : c ≠ z := by
      rintro rfl
      exact Ordering.noConfusion (hc.symm.trans Std.ReflCmp.compare_self)
    cases t with
    | nil => exact Std.OrientedCmp.gt_of_lt hc
    | cons d t =>
      rw [List.headD_cons, List.headD_cons] at h ⊢
      rw [List.compare_cons_cons]
      rcases h with h | h | ⟨h, h'⟩
      · exact absurd h hne
      · have hcd : compare c d ≠ .eq := fun he => h (Std.LawfulEqCmp.eq_of_compare he)
        cases hcmp : compare c d with
        | lt => rfl
        | eq => exact absurd hcmp hcd
        | gt => rfl
      · simp only [List.length_cons] at h h'
        obtain rfl : s = [] := List.length_eq_zero_iff.mp (by omega)
        obtain rfl : t = [] := List.length_eq_zero_iff.mp (by omega)
        exact Ordering.then_eq.symm

theorem compare_terminated :
    compare ((s ++ [z]).take (min s.length t.length + 1))
      ((t ++ [z]).take (min s.length t.length + 1)) = compare s t := by
  induction s generalizing t with
  | nil =>
    rw [List.length_nil, Nat.zero_min]
    cases t with
    | nil => exact Std.ReflCmp.compare_self
    | cons d t => exact List.compare_cons_cons.trans (by rw [ht d List.mem_cons_self]; rfl)
  | cons c s ih =>
    cases t with
    | nil =>
      have hc := Std.OrientedCmp.gt_of_lt (hs c List.mem_cons_self)
      exact List.compare_cons_cons.trans (by rw [hc]; rfl)
    | cons d t =>
      rw [List.length_cons, List.length_cons, Nat.succ_min_succ, List.cons_append, List.cons_append,
        List.take_succ_cons, List.take_succ_cons, List.compare_cons_cons, List.compare_cons_cons,
        ih (fun c hc => hs c (List.mem_cons_of_mem _ hc)) fun d hd => ht d (List.mem_cons_of_mem _ hd)]

end Least

end Lib
