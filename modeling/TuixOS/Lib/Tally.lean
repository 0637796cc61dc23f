import Mathlib.Order.ConditionallyCompleteLattice.Basic
import Mathlib.Order.Lattice.Nat
import Mathlib.Data.Set.Finite.List

/-!
# The least and the greatest of a list that may be empty

Programs that keep a running minimum or maximum often start both at 0. `least` and `greatest` are
what such a scan has seen after a list, 0 for the empty list: a round of the scan is one lemma, and
as both depend on the members only, the order of the list does not matter.
-/

namespace Lib

/-- The least member, or 0. -/
noncomputable def least (xs : List ℕ) : ℕ := sInf {x | x ∈ xs}

/-- The greatest member, or 0. -/
noncomputable def greatest (xs : List ℕ) : ℕ := sSup {x | x ∈ xs}

@[simp] theorem least_nil : least [] = 0 := by
  simp [least]

@[simp] theorem greatest_nil : greatest [] = 0 := by
  simp [greatest]

theorem least_mem {xs : List ℕ} (h : xs ≠ []) : least xs ∈ xs :=
  Nat.sInf_mem (List.exists_mem_of_ne_nil xs h)

theorem isLeast_least {xs : List ℕ} (h : xs ≠ []) : IsLeast {x | x ∈ xs} (least xs) :=
  ⟨least_mem h, fun _ hx => Nat.sInf_le hx⟩

theorem isGreatest_greatest {xs : List ℕ} (h : xs ≠ []) : IsGreatest {x | x ∈ xs} (greatest xs) := by
  have hbdd := (List.finite_toSet xs).bddAbove
  exact ⟨Nat.sSup_mem (List.exists_mem_of_ne_nil xs h) hbdd, fun _ hx => le_csSup hbdd hx⟩

theorem mem_concat_eq_insert (xs : List ℕ) (a : ℕ) :
    {x | x ∈ xs ++ [a]} = insert a {x | x ∈ xs} := by
  ext x
  simp [or_comm]

/-- A round of a running minimum whose sentinel 0 is no member. -/
theorem least_concat {xs : List ℕ} (h0 : 0 ∉ xs) (a : ℕ) :
    least (xs ++ [a]) = if least xs = 0 ∨ a < least xs then a else least xs := by
  rcases List.eq_nil_or_concat xs with rfl | hne
  · simp [least]
  · have hnil : xs ≠ [] := by
      obtain ⟨ys, y, rfl⟩ := hne
      simp
    have hmem := least_mem hnil
    have hpos : least xs ≠ 0 := fun h => h0 (h ▸ hmem)
    have hinsert : least (xs ++ [a]) = a ⊓ least xs := by
      rw [least, mem_concat_eq_insert]
      exact csInf_insert (OrderBot.bddBelow _) ⟨_, hmem⟩
    rw [hinsert]
    split_ifs <;> omega

/-- A round of a running maximum. -/
theorem greatest_concat (xs : List ℕ) (a : ℕ) :
    greatest (xs ++ [a]) = if greatest xs < a then a else greatest xs := by
  have hinsert : greatest (xs ++ [a]) = a ⊔ greatest xs := by
    rw [greatest, mem_concat_eq_insert]
    exact csSup_insert' (List.finite_toSet xs).bddAbove
  rw [hinsert]
  split_ifs <;> omega

theorem least_perm {xs ys : List ℕ} (h : xs.Perm ys) : least xs = least ys := by
  simp only [least, h.mem_iff]

theorem greatest_perm {xs ys : List ℕ} (h : xs.Perm ys) : greatest xs = greatest ys := by
  simp only [greatest, h.mem_iff]

end Lib
