import Mathlib.Data.List.Basic
import Mathlib.Logic.Function.Basic

/-!
# Tables that are filled entry by entry

A loop that writes one entry of a table for each element of a list: over a list of keys
(`foldl_update_keys`), and over a list of keys with what belongs to them (`foldl_update_lookup`).
-/

namespace Lib

variable {κ α β : Type} [DecidableEq κ]

/-- A loop over keys sets the entries of the keys and keeps the others. -/
theorem foldl_update_keys (g : κ → β) (l : List κ) (f : κ → β) (k : κ) :
    l.foldl (fun f i => Function.update f i (g i)) f k = if k ∈ l then g k else f k := by
  induction l generalizing f with
  | nil => rfl
  | cons i l ih =>
    rw [List.foldl_cons, ih]
    by_cases hmem : k ∈ l
    · rw [if_pos hmem, if_pos (List.mem_cons_of_mem i hmem)]
    · rw [if_neg hmem]
      by_cases hki : k = i
      · subst hki
        rw [Function.update_self, if_pos List.mem_cons_self]
      · rw [Function.update_of_ne hki, if_neg (by simp [hki, hmem])]

/-- A loop over an association list without a repeated key sets each entry from what belongs to it. -/
theorem foldl_update_lookup (g : κ → α → β) {l : List (κ × α)} (hl : (l.map Prod.fst).Nodup)
    (f : κ → β) (k : κ) :
    l.foldl (fun f x => Function.update f x.1 (g x.1 x.2)) f k =
      match l.lookup k with
      | some a => g k a
      | none => f k := by
  induction l generalizing f with
  | nil => rfl
  | cons x l ih =>
    obtain ⟨i, a⟩ := x
    rw [List.map_cons, List.nodup_cons] at hl
    rw [List.foldl_cons, ih hl.2]
    by_cases hki : k = i
    · subst hki
      have hmem : k ∉ l.map Prod.fst := hl.1
      have hnone : l.lookup k = none := by
        rw [List.lookup_eq_none_iff]
        intro p hp
        rw [bne_iff_ne]
        intro hkp
        exact hmem (hkp ▸ List.mem_map_of_mem hp)
      rw [hnone, List.lookup_cons_self]
      exact Function.update_self ..
    · have htail : ((i, a) :: l).lookup k = l.lookup k := by
        rw [List.lookup_cons, beq_false_of_ne hki]
      rw [htail, Function.update_of_ne hki]

end Lib
