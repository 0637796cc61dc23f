import Mathlib.Logic.ExistsUnique

/-!
# Numbers handed out by a counter

Holders `ι` carry a number or 0. `Numbers val lo hi` says that the numbers `lo, …, hi - 1` are held,
each by exactly one holder, and no others; the next number `hi` may go to a holder of 0.
-/

namespace Lib

variable {ι : Type} {val val' : ι → Nat} {lo hi : Nat}

structure Numbers (val : ι → Nat) (lo hi : Nat) : Prop where
  range : ∀ r, val r = 0 ∨ lo ≤ val r ∧ val r < hi
  inj : ∀ r r', val r ≠ 0 → val r = val r' → r = r'
  surj : ∀ b, lo ≤ b → b < hi → ∃ r, val r = b

namespace Numbers

theorem empty (h : ∀ r, val r = 0) : Numbers val lo lo where
  range r := Or.inl (h r)
  inj r _ hr := absurd (h r) hr
  surj _ hlo hhi := absurd hhi (Nat.not_lt.mpr hlo)

theorem lt (h : Numbers val lo hi) {r : ι} (hr : val r ≠ 0) : lo ≤ val r ∧ val r < hi :=
  (h.range r).resolve_left hr

theorem ne (h : Numbers val lo hi) {r r' : ι} (hr : val r ≠ 0) (hne : r ≠ r') : val r ≠ val r' :=
  fun heq => hne (h.inj r r' hr heq)

theorem existsUnique (h : Numbers val lo hi) (h0 : 0 < lo) {b : Nat} (hlo : lo ≤ b) (hhi : b < hi) :
    ∃! r, val r = b := by
  obtain ⟨r, hr⟩ := h.surj b hlo hhi
  refine ⟨r, hr, fun r' hr' => ?_⟩
  exact h.inj r' r (by omega) (hr'.trans hr.symm)

/-- A holder of 0 gets the next number. -/
theorem fresh (h : Numbers val lo hi) (h0 : 0 < lo) (hle : lo ≤ hi) {r : ι} (hr : val r = 0)
    (hnew : val' r = hi) (hold : ∀ r', r' ≠ r → val' r' = val r') : Numbers val' lo (hi + 1) where
  range r' := by
    by_cases hr' : r' = r
    · subst hr'
      exact Or.inr (by omega)
    · rw [hold r' hr']
      rcases h.range r' with hz | ⟨hl, hh⟩
      · exact Or.inl hz
      · exact Or.inr ⟨hl, by omega⟩
  inj r₁ r₂ hne heq := by
    by_cases h₁ : r₁ = r <;> by_cases h₂ : r₂ = r
    · rw [h₁, h₂]
    · -- the new number is above all that are held
      rw [h₁, hnew, hold r₂ h₂] at heq
      have := h.range r₂
      omega
    · rw [h₂, hnew, hold r₁ h₁] at heq
      have := h.range r₁
      omega
    · rw [hold r₁ h₁] at hne
      rw [hold r₁ h₁, hold r₂ h₂] at heq
      exact h.inj r₁ r₂ hne heq
  surj b hlo hhi := by
    by_cases hb : b = hi
    · exact ⟨r, hnew.trans hb.symm⟩
    · obtain ⟨r', hr'⟩ := h.surj b hlo (by omega)
      have hne : r' ≠ r := by
        rintro rfl
        omega
      exact ⟨r', (hold r' hne).trans hr'⟩

end Numbers

end Lib
