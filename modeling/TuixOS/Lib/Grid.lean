import Mathlib.Data.Int.Basic
import Mathlib.Tactic.SplitIfs

/-!
# Grids of cells

`put` sets one cell, `write` a text from a cell on to the right. Both take any row and column, and
what falls outside the grid is dropped. Writing a text is putting its characters one after the other
(`write_cons`); a text hides one that is no longer at the same place (`write_write`).
-/

namespace Lib

abbrev Grid (rows cols : Nat) (α : Type) := Fin rows → Fin cols → α

namespace Grid
variable {rows cols : Nat} {α : Type}

def put (row col : Int) (x : α) (g : Grid rows cols α) : Grid rows cols α := fun i j =>
  if (i : Int) = row ∧ (j : Int) = col then x else g i j

/-- The character of a text at `col` that falls on the column `j`. -/
def shown (col : Int) (text : List α) (j : Int) : Option α :=
  if col ≤ j then text[(j - col).toNat]? else none

def write (row col : Int) (text : List α) (g : Grid rows cols α) : Grid rows cols α := fun i j =>
  if (i : Int) = row then (shown col text j).getD (g i j) else g i j

variable {row col : Int} {x : α} {text text' : List α} {g : Grid rows cols α}

theorem put_outside (h : ∀ (i : Fin rows) (j : Fin cols), ¬((i : Int) = row ∧ (j : Int) = col)) :
    g.put row col x = g := by
  funext i j
  exact if_neg (h i j)

theorem write_nil : g.write row col [] = g := by
  funext i j
  simp [write, shown]

theorem write_cons : g.write row col (x :: text) = (g.put row col x).write row (col + 1) text := by
  funext i j
  simp only [write, put, shown]
  by_cases hrow : (i : Int) = row
  · rw [if_pos hrow, if_pos hrow]
    rcases Int.lt_trichotomy (j : Int) col with hlt | heq | hgt
    · rw [if_neg (by omega), if_neg (by omega), if_neg (by omega)]
    · rw [if_pos (by omega), if_neg (by omega), if_pos ⟨hrow, heq⟩]
      simp [heq]
    · have hsucc : ((j : Int) - col).toNat = ((j : Int) - (col + 1)).toNat + 1 := by omega
      rw [if_pos (by omega), if_pos (by omega), if_neg (by omega), hsucc, List.getElem?_cons_succ]
  · rw [if_neg hrow, if_neg hrow, if_neg fun h => hrow h.1]

theorem write_write (h : text.length ≤ text'.length) :
    (g.write row col text).write row col text' = g.write row col text' := by
  funext i j
  simp only [write, shown]
  split_ifs with hrow hcol
  · by_cases hlen : ((j : Int) - col).toNat < text'.length
    · rw [List.getElem?_eq_getElem hlen]
      rfl
    · rw [List.getElem?_eq_none (by omega), List.getElem?_eq_none (by omega)]
      rfl
  · rfl
  · rfl

end Grid

end Lib
