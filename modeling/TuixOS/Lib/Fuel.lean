import Mathlib.Order.Lattice

/-!
# Computations with fuel

`Returns f a`: given enough fuel, the computation `f` ends in `a`, and more fuel does not change
that. The rules follow the computation: a result, and one computation behind another.
-/

namespace Lib

variable {ε α β : Type}

/-- With enough fuel, `f` ends in `a`. -/
def Returns (f : Nat → Except ε α) (a : α) : Prop := ∃ n, ∀ fuel, n ≤ fuel → f fuel = .ok a

namespace Returns
variable {f : Nat → Except ε α} {a a' : α}

/-- A computation that uses no fuel. -/
theorem of_ok {x : Except ε α} (h : x = .ok a) : Returns (fun _ => x) a :=
  ⟨0, fun _ _ => h⟩

theorem of_forall (h : ∀ fuel, f fuel = .ok a) : Returns f a :=
  ⟨0, fun fuel _ => h fuel⟩

theorem bind {g : α → Nat → Except ε β} {b : β} (h : Returns f a) (hg : Returns (g a) b) :
    Returns (fun fuel => f fuel >>= fun a => g a fuel) b := by
  obtain ⟨n, hn⟩ := h
  obtain ⟨m, hm⟩ := hg
  refine ⟨max n m, fun fuel hfuel => ?_⟩
  simp only [hn fuel (le_trans (le_max_left n m) hfuel)]
  exact hm fuel (le_trans (le_max_right n m) hfuel)

/-- A computation that spends one unit of fuel first. -/
theorem succ (h : Returns (fun fuel => f (fuel + 1)) a) : Returns f a := by
  obtain ⟨n, hn⟩ := h
  refine ⟨n + 1, fun fuel hfuel => ?_⟩
  obtain ⟨k, rfl⟩ := Nat.exists_eq_add_of_le' (le_trans (Nat.le_add_left 1 n) hfuel)
  exact hn k (by omega)

theorem pred (h : Returns f a) : Returns (fun fuel => f (fuel + 1)) a := by
  obtain ⟨n, hn⟩ := h
  exact ⟨n, fun fuel hfuel => hn (fuel + 1) (by omega)⟩

theorem unique (h : Returns f a) (h' : Returns f a') : a = a' := by
  obtain ⟨n, hn⟩ := h
  obtain ⟨m, hm⟩ := h'
  have heq := (hn (max n m) (le_max_left n m)).symm.trans (hm (max n m) (le_max_right n m))
  exact Except.ok.inj heq

/-- Behind a computation that returns comes the rest. -/
theorem of_bind {g : α → Nat → Except ε β} {b : β} (h : Returns f a)
    (hb : Returns (fun fuel => f fuel >>= fun a => g a fuel) b) : Returns (g a) b := by
  obtain ⟨n, hn⟩ := h
  obtain ⟨m, hm⟩ := hb
  refine ⟨max n m, fun fuel hfuel => ?_⟩
  have hboth := hm fuel (le_trans (le_max_right n m) hfuel)
  simp only [hn fuel (le_trans (le_max_left n m) hfuel)] at hboth
  exact hboth

end Returns

end Lib
