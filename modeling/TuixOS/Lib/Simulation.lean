import Mathlib.Data.List.Basic

/-!
# Programs with a state, and the functions they simulate

A `Prog` changes a state and ends in a result or a failure, and keeps the state when it fails. It
`Simulates` a function `f` on an abstract state when every run that ends in a good state started in one,
with the outcome that `f` has on the abstract state. Good states are those without an accident: once
there has been one, nothing is said. The rules follow the program.
-/

namespace Lib

variable {σ τ ε α β : Type}

abbrev Prog (σ ε α : Type) := ExceptT ε (StateM σ) α

namespace Prog

/-- The outcome of a program, and the state that it ends in. -/
def exec (x : Prog σ ε α) (s : σ) : Except ε α × σ := x.run.run s

/-- One step on the state. -/
def step (g : σ → α × σ) : Prog σ ε α := ExceptT.mk fun s => (.ok (g s).1, (g s).2)

@[simp] theorem exec_pure (a : α) (s : σ) : exec (pure a : Prog σ ε α) s = (.ok a, s) := rfl

@[simp] theorem exec_throw (e : ε) (s : σ) : exec (throw e : Prog σ ε α) s = (.error e, s) := rfl

@[simp] theorem exec_step (g : σ → α × σ) (s : σ) :
    exec (step g : Prog σ ε α) s = (.ok (g s).1, (g s).2) := rfl

theorem exec_bind_ok {x : Prog σ ε α} {y : α → Prog σ ε β} {s s' : σ} {a : α}
    (h : exec x s = (.ok a, s')) : exec (x >>= y) s = exec (y a) s' := by
  have hbind : exec (x >>= y) s = exec (ExceptT.mk (ExceptT.bindCont y (exec x s).1)) (exec x s).2 := rfl
  rw [hbind, h]
  rfl

theorem exec_bind_error {x : Prog σ ε α} {y : α → Prog σ ε β} {s s' : σ} {e : ε}
    (h : exec x s = (.error e, s')) : exec (x >>= y) s = (.error e, s') := by
  have hbind : exec (x >>= y) s = exec (ExceptT.mk (ExceptT.bindCont y (exec x s).1)) (exec x s).2 := rfl
  rw [hbind, h]
  rfl

end Prog

open Prog

/-- Runs of `x` that end well have the outcome of `f`. -/
def Simulates (abs : σ → τ) (good : σ → Prop) (x : Prog σ ε α) (f : τ → Except ε (α × τ)) : Prop :=
  ∀ s, good (exec x s).2 → good s ∧ f (abs s) = (exec x s).1.map fun a => (a, abs (exec x s).2)

namespace Simulates
variable {abs : σ → τ} {good : σ → Prop} {x : Prog σ ε α} {f : τ → Except ε (α × τ)}

theorem congr {g : τ → Except ε (α × τ)} (h : Simulates abs good x f) (heq : ∀ t, g t = f t) :
    Simulates abs good x g := by
  intro s hgood
  rw [heq]
  exact h s hgood

theorem pure (a : α) : Simulates abs good (Pure.pure a : Prog σ ε α) fun t => .ok (a, t) :=
  fun _ hgood => ⟨hgood, rfl⟩

theorem throw (e : ε) : Simulates abs good (throw e : Prog σ ε α) fun _ => .error e :=
  fun _ hgood => ⟨hgood, rfl⟩

theorem step {g : σ → α × σ} {k : τ → α × τ}
    (h : ∀ s, good (g s).2 → good s ∧ k (abs s) = ((g s).1, abs (g s).2)) :
    Simulates abs good (Prog.step g : Prog σ ε α) fun t => .ok (k t) := by
  intro s hgood
  obtain ⟨hgood', heq⟩ := h s hgood
  exact ⟨hgood', congrArg Except.ok heq⟩

theorem bind {y : α → Prog σ ε β} {g : α → τ → Except ε (β × τ)} (hx : Simulates abs good x f)
    (hy : ∀ a, Simulates abs good (y a) (g a)) :
    Simulates abs good (x >>= y) fun t => f t >>= fun r => g r.1 r.2 := by
  intro s hgood
  rcases hrun : exec x s with ⟨r, s'⟩
  have hx' : good s' → good s ∧ f (abs s) = r.map fun a => (a, abs s') := by
    have hsim := hx s
    rwa [hrun] at hsim
  cases r with
  | ok a =>
    rw [exec_bind_ok hrun] at hgood ⊢
    obtain ⟨hgood', heq'⟩ := hy a s' hgood
    obtain ⟨hgood₀, heq⟩ := hx' hgood'
    refine ⟨hgood₀, ?_⟩
    simp only [heq]
    exact heq'
  | error e =>
    rw [exec_bind_error hrun] at hgood ⊢
    obtain ⟨hgood₀, heq⟩ := hx' hgood
    refine ⟨hgood₀, ?_⟩
    simp only [heq]
    rfl

/-- Programs without a result, one behind the other. -/
theorem seq {x y : Prog σ ε Unit} {f g : τ → Except ε τ}
    (hx : Simulates abs good x fun t => (f t).map fun t => ((), t))
    (hy : Simulates abs good y fun t => (g t).map fun t => ((), t)) :
    Simulates abs good (x >>= fun _ => y) fun t => (f t >>= g).map fun t => ((), t) := by
  refine (hx.bind fun _ => hy).congr fun t => ?_
  cases f t with
  | ok t' => rfl
  | error e => rfl

/-- The outcome of a good run without a result. -/
theorem outcome {x : Prog σ ε Unit} {f : τ → Except ε τ} {s : σ}
    (hx : Simulates abs good x fun t => (f t).map fun t => ((), t)) (hgood : good (exec x s).2) :
    good s ∧ f (abs s) = (exec x s).1.map fun _ => abs (exec x s).2 := by
  obtain ⟨hgood₀, heq⟩ := hx s hgood
  refine ⟨hgood₀, ?_⟩
  have hleft : ∀ y : Except ε τ, (y.map fun t => ((), t)).map Prod.snd = y := by
    intro y
    cases y <;> rfl
  have hright : ∀ (r : Except ε Unit) (t : τ), (r.map fun a => (a, t)).map Prod.snd = r.map fun _ => t := by
    intro r t
    cases r <;> rfl
  calc
    f (abs s) = ((f (abs s)).map fun t => ((), t)).map Prod.snd := (hleft _).symm
    _ = ((exec x s).1.map fun a => (a, abs (exec x s).2)).map Prod.snd := congrArg _ heq
    _ = (exec x s).1.map fun _ => abs (exec x s).2 := hright _ _

/-- A loop over a list, against a fold that hands the abstract state on. -/
theorem forM {y : β → Prog σ ε Unit} {g : τ → β → Except ε τ} {bs : List β}
    (h : ∀ b ∈ bs, Simulates abs good (y b) fun t => (g t b).map fun t => ((), t)) :
    Simulates abs good (bs.forM y) fun t => (bs.foldlM g t).map fun t => ((), t) := by
  induction bs with
  | nil => exact pure ()
  | cons b bs ih =>
    have hrest := ih fun b' hb' => h b' (List.mem_cons_of_mem b hb')
    exact (h b List.mem_cons_self).seq hrest

end Simulates

end Lib
