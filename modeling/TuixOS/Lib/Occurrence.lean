import Mathlib.Order.Bounds.Basic
import Mathlib.Data.List.Infix

/-!
# Where a list occurs in another

`occurrences s t` is the set of the positions in `s` from which on `t` is read. A search from the left
looks at a list by its head: the first occurrence is at 0, or one behind the first in the tail
(`isLeast_occurrences_zero`, `isLeast_occurrences_succ`). The last one is one behind the last in the tail, or
at 0 (`isGreatest_occurrences_succ`, `isGreatest_occurrences_zero`).
-/

namespace Lib

variable {α : Type} {c : α} {s t : List α} {i : Nat}

def occurrences (s t : List α) : Set Nat := {i | t <+: s.drop i}

theorem zero_mem_occurrences : 0 ∈ occurrences s t ↔ t <+: s := Iff.rfl

theorem succ_mem_occurrences : i + 1 ∈ occurrences (c :: s) t ↔ i ∈ occurrences s t := Iff.rfl

theorem occurrences_nil (ht : t ≠ []) : occurrences [] t = ∅ := by
  refine Set.eq_empty_of_forall_notMem fun i hi => ht ?_
  rwa [occurrences, Set.mem_ofPred_eq, List.drop_nil, List.prefix_nil] at hi

theorem lt_length_of_mem_occurrences (ht : t ≠ []) (h : i ∈ occurrences s t) : i < s.length := by
  by_contra hlong
  rw [occurrences, Set.mem_ofPred_eq, List.drop_eq_nil_of_le (Nat.not_lt.mp hlong),
    List.prefix_nil] at h
  exact ht h

theorem isLeast_occurrences_zero (h : t <+: s) : IsLeast (occurrences s t) 0 :=
  ⟨zero_mem_occurrences.mpr h, fun _ _ => Nat.zero_le _⟩

theorem isLeast_occurrences_succ (h : ¬t <+: c :: s) (hi : IsLeast (occurrences s t) i) :
    IsLeast (occurrences (c :: s) t) (i + 1) := by
  refine ⟨succ_mem_occurrences.mpr hi.1, fun j hj => ?_⟩
  cases j with
  | zero => exact absurd (zero_mem_occurrences.mp hj) h
  | succ j => exact Nat.succ_le_succ (hi.2 (succ_mem_occurrences.mp hj))

theorem occurrences_cons_eq_empty (h : ¬t <+: c :: s) (hs : occurrences s t = ∅) :
    occurrences (c :: s) t = ∅ := by
  refine Set.eq_empty_of_forall_notMem fun j hj => ?_
  cases j with
  | zero => exact h (zero_mem_occurrences.mp hj)
  | succ j =>
    rw [succ_mem_occurrences, hs] at hj
    exact hj

theorem isGreatest_occurrences_succ (hi : IsGreatest (occurrences s t) i) :
    IsGreatest (occurrences (c :: s) t) (i + 1) := by
  refine ⟨succ_mem_occurrences.mpr hi.1, fun j hj => ?_⟩
  cases j with
  | zero => exact Nat.zero_le _
  | succ j => exact Nat.succ_le_succ (hi.2 (succ_mem_occurrences.mp hj))

theorem isGreatest_occurrences_zero (h : t <+: c :: s) (hs : occurrences s t = ∅) :
    IsGreatest (occurrences (c :: s) t) 0 := by
  refine ⟨zero_mem_occurrences.mpr h, fun j hj => ?_⟩
  cases j with
  | zero => exact le_rfl
  | succ j =>
    rw [succ_mem_occurrences, hs] at hj
    exact absurd hj (Set.notMem_empty j)

/-- One element is read where the list has it. -/
theorem singleton_prefix_cons_iff {d : α} : [d] <+: c :: s ↔ c = d := by
  rw [List.cons_prefix_cons]
  exact (and_iff_left List.nil_prefix).trans eq_comm

end Lib
