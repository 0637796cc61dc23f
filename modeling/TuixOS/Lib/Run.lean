import Mathlib.Data.List.Basic

/-!
# Runs of a labelled transition system

`Run step s as s'`: the system can go from `s` to `s'` by steps with the labels `as`. A run grows at
its end, so an invariant may speak of the labels taken so far (`Run.invariant`); what holds in every
state needs no labels (`Run.state_invariant`). A system given by functions is run by `runLabels`.
-/

namespace Lib

variable {σ α : Type}

/-- The runs of the relation `step`, with their labels. -/
inductive Run (step : σ → α → σ → Prop) (s : σ) : List α → σ → Prop
  | nil : Run step s [] s
  | snoc {as : List α} {a : α} {s' s'' : σ} :
      Run step s as s' → step s' a s'' → Run step s (as ++ [a]) s''

namespace Run
variable {step step' : σ → α → σ → Prop} {s s' s'' : σ} {as bs : List α}

/-- The invariant rule, for a property of the labels taken so far and the state. -/
theorem invariant {I : List α → σ → Prop} (h : Run step s as s') (h0 : I [] s)
    (hstep : ∀ as a t t', I as t → step t a t' → I (as ++ [a]) t') : I as s' := by
  induction h with
  | nil => exact h0
  | snoc _ ha ih => exact hstep _ _ _ _ ih ha

/-- The invariant rule, for a property of the state. -/
theorem state_invariant {I : σ → Prop} (h : Run step s as s') (h0 : I s)
    (hstep : ∀ a t t', I t → step t a t' → I t') : I s' :=
  h.invariant (I := fun _ t => I t) h0 fun _ a t t' => hstep a t t'

theorem append (h : Run step s as s') (h' : Run step s' bs s'') : Run step s (as ++ bs) s'' := by
  induction h' with
  | nil => rwa [List.append_nil]
  | snoc _ ha ih => rw [← List.append_assoc]; exact ih.snoc ha

theorem single {a : α} (h : step s a s') : Run step s [a] s' := by
  have hnil : Run step s [] s := Run.nil
  exact hnil.snoc h

theorem cons {a : α} (h : step s a s') (h' : Run step s' as s'') : Run step s (a :: as) s'' :=
  (single h).append h'

theorem nil_inv (h : Run step s [] s') : s' = s := by
  generalize hl : [] = l at h
  cases h with
  | nil => rfl
  | snoc => simp at hl

/-- The first step of a run. -/
theorem cons_inv {a : α} (h : Run step s (a :: as) s'') : ∃ s', step s a s' ∧ Run step s' as s'' := by
  generalize hl : a :: as = l at h
  induction h generalizing as with
  | nil => cases hl
  | @snoc bs b t t' hrun hb ih =>
    cases bs with
    | nil =>
      cases hl
      rw [hrun.nil_inv] at hb
      exact ⟨_, hb, nil⟩
    | cons c cs =>
      cases hl
      obtain ⟨s₁, hs₁, hrun₁⟩ := ih rfl
      exact ⟨s₁, hs₁, hrun₁.snoc hb⟩

/-- A run stops where its labels are split. -/
theorem split (h : Run step s (as ++ bs) s'') : ∃ s', Run step s as s' ∧ Run step s' bs s'' := by
  induction as generalizing s with
  | nil => exact ⟨s, nil, h⟩
  | cons a as ih =>
    obtain ⟨t, ha, hrest⟩ := h.cons_inv
    obtain ⟨s', hpre, hpost⟩ := ih hrest
    exact ⟨s', cons ha hpre, hpost⟩

theorem of_single {a : α} (h : Run step s [a] s') : step s a s' := by
  obtain ⟨t, ha, hnil⟩ := h.cons_inv
  rwa [hnil.nil_inv]

theorem mono (hsub : ∀ a t t', step t a t' → step' t a t') (h : Run step s as s') :
    Run step' s as s' := by
  induction h with
  | nil => exact .nil
  | snoc _ ha ih => exact ih.snoc (hsub _ _ _ ha)

/-! ### Steps on the way -/

/-- The run from `s` to `s'` takes a step in `hit`. -/
def Through (step hit : σ → α → σ → Prop) (s : σ) (as : List α) (s' : σ) : Prop :=
  ∃ bs b cs t t', as = bs ++ b :: cs ∧ Run step s bs t ∧ step t b t' ∧ hit t b t' ∧ Run step t' cs s'

theorem Through.snoc {hit : σ → α → σ → Prop} {a : α} (h : Through step hit s as s')
    (ha : step s' a s'') : Through step hit s (as ++ [a]) s'' := by
  obtain ⟨bs, b, cs, t, t', rfl, hpre, hb, hhit, hpost⟩ := h
  exact ⟨bs, b, cs ++ [a], t, t', by simp, hpre, hb, hhit, hpost.snoc ha⟩

/-- A property that only the steps in `hit` end holds until the first of them. -/
theorem invariant_or_through {I : σ → Prop} {hit : σ → α → σ → Prop} (h : Run step s as s')
    (h0 : I s) (hstep : ∀ a t t', I t → step t a t' → hit t a t' ∨ I t') :
    Through step hit s as s' ∨ I s' := by
  induction h with
  | nil => exact Or.inr h0
  | @snoc as a t t' hrun ha ih =>
    rcases ih with hthrough | ht
    · exact Or.inl (hthrough.snoc ha)
    · rcases hstep a t t' ht ha with hhit | ht'
      · exact Or.inl ⟨as, a, [], t, t', rfl, hrun, ha, hhit, .nil⟩
      · exact Or.inr ht'

/-! ### Counting steps -/

/-- A run that takes `n` steps in `hit`. -/
inductive Hits (step hit : σ → α → σ → Prop) (s : σ) : List α → Nat → σ → Prop
  | nil : Hits step hit s [] 0 s
  | miss {as : List α} {a : α} {n : Nat} {s' s'' : σ} :
      Hits step hit s as n s' → step s' a s'' → ¬hit s' a s'' → Hits step hit s (as ++ [a]) n s''
  | hit {as : List α} {a : α} {n : Nat} {s' s'' : σ} :
      Hits step hit s as n s' → step s' a s'' → hit s' a s'' → Hits step hit s (as ++ [a]) (n + 1) s''

namespace Hits
variable {hit : σ → α → σ → Prop} {n : Nat}

theorem cons_miss {a : α} (ha : step s a s') (hmiss : ¬hit s a s') (h : Hits step hit s' as n s'') :
    Hits step hit s (a :: as) n s'' := by
  have hnil : Hits step hit s [] 0 s := .nil
  induction h with
  | nil => exact hnil.miss ha hmiss
  | miss _ hb hnot ih => exact ih.miss hb hnot
  | hit _ hb hhit ih => exact ih.hit hb hhit

theorem cons_hit {a : α} (ha : step s a s') (hhit : hit s a s') (h : Hits step hit s' as n s'') :
    Hits step hit s (a :: as) (n + 1) s'' := by
  have hnil : Hits step hit s [] 0 s := .nil
  induction h with
  | nil => exact hnil.hit ha hhit
  | miss _ hb hnot ih => exact ih.miss hb hnot
  | hit _ hb hhit ih => exact ih.hit hb hhit

theorem mono (hsub : ∀ a t t', step t a t' → step' t a t') (h : Hits step hit s as n s') :
    Hits step' hit s as n s' := by
  induction h with
  | nil => exact .nil
  | miss _ ha hnot ih => exact ih.miss (hsub _ _ _ ha) hnot
  | hit _ ha hhit ih => exact ih.hit (hsub _ _ _ ha) hhit

/-- The ranking rule: what never grows, and falls at each step in `hit`, bounds their number. -/
theorem rank_le {I : σ → Prop} {r : σ → Nat} (h : Hits step hit s as n s') (h0 : I s)
    (hstep : ∀ a t t', I t → step t a t' →
      I t' ∧ r t' ≤ r t ∧ (hit t a t' → r t' < r t)) :
    I s' ∧ n + r s' ≤ r s := by
  induction h with
  | nil => exact ⟨h0, by omega⟩
  | miss _ ha _ ih =>
    obtain ⟨hinv, hrank⟩ := ih
    obtain ⟨hinv', hle, -⟩ := hstep _ _ _ hinv ha
    exact ⟨hinv', by omega⟩
  | hit _ ha hhit ih =>
    obtain ⟨hinv, hrank⟩ := ih
    obtain ⟨hinv', -, hlt⟩ := hstep _ _ _ hinv ha
    have := hlt hhit
    exact ⟨hinv', by omega⟩

/-- The counting rule: what grows by one at each step in `hit`, and at no other step, counts them. -/
theorem count_eq {I : σ → Prop} {c : σ → Nat} (h : Hits step hit s as n s') (h0 : I s)
    (hstep : ∀ a t t', I t → step t a t' →
      I t' ∧ (hit t a t' → c t' = c t + 1) ∧ (¬hit t a t' → c t' = c t)) :
    I s' ∧ c s' = c s + n := by
  induction h with
  | nil => exact ⟨h0, rfl⟩
  | miss _ ha hnot ih =>
    obtain ⟨hinv, hcount⟩ := ih
    obtain ⟨hinv', -, hsame⟩ := hstep _ _ _ hinv ha
    exact ⟨hinv', (hsame hnot).trans hcount⟩
  | hit _ ha hhit ih =>
    obtain ⟨hinv, hcount⟩ := ih
    obtain ⟨hinv', hone, -⟩ := hstep _ _ _ hinv ha
    have := hone hhit
    exact ⟨hinv', by omega⟩

end Hits

end Run

/-! ## Runs of an executable system -/

section Exec
variable {ε : Type} (enabled : α → σ → Prop) [∀ a s, Decidable (enabled a s)]
  (exec : α → σ → Except ε σ)

/-- The state after the labels `as`, each enabled and without an error. -/
def runLabels : List α → σ → Option σ
  | [], s => some s
  | a :: as, s =>
    if enabled a s then
      match exec a s with
      | .ok s' => runLabels as s'
      | .error _ => none
    else none

variable {enabled exec}

theorem run_of_runLabels : ∀ {as : List α} {s s' : σ}, runLabels enabled exec as s = some s' →
    Run (fun s a s' => enabled a s ∧ exec a s = .ok s') s as s'
  | [], s, s', h => by
    cases h
    exact Run.nil
  | a :: as, s, s', h => by
    rw [runLabels] at h
    split_ifs at h with hen
    cases hexec : exec a s with
    | error e => simp [hexec] at h
    | ok t =>
      rw [hexec] at h
      exact Run.cons ⟨hen, hexec⟩ (run_of_runLabels h)

/-- The state after the labels `as`, and how many of the steps are in `hit`. -/
def runHits (enabled : α → σ → Prop) [∀ a s, Decidable (enabled a s)] (exec : α → σ → Except ε σ)
    (hit : σ → α → σ → Prop) [∀ s a s', Decidable (hit s a s')] : List α → σ → Option (Nat × σ)
  | [], s => some (0, s)
  | a :: as, s =>
    if enabled a s then
      match exec a s with
      | .ok s' => (runHits enabled exec hit as s').map fun r => (if hit s a s' then r.1 + 1 else r.1, r.2)
      | .error _ => none
    else none

theorem hits_of_runHits {hit : σ → α → σ → Prop} [∀ s a s', Decidable (hit s a s')] :
    ∀ {as : List α} {s : σ} {r : Nat × σ}, runHits enabled exec hit as s = some r →
    Run.Hits (fun s a s' => enabled a s ∧ exec a s = .ok s') hit s as r.1 r.2
  | [], s, r, h => by
    cases h
    exact .nil
  | a :: as, s, r, h => by
    rw [runHits] at h
    split_ifs at h with hen
    cases hexec : exec a s with
    | error e => simp [hexec] at h
    | ok t =>
      rw [hexec] at h
      obtain ⟨r', hr', rfl⟩ := Option.map_eq_some_iff.mp h
      have hrest := hits_of_runHits hr'
      by_cases hhit : hit s a t
      · simp only [if_pos hhit]
        exact hrest.cons_hit ⟨hen, hexec⟩ hhit
      · simp only [if_neg hhit]
        exact hrest.cons_miss ⟨hen, hexec⟩ hhit

end Exec

end Lib
