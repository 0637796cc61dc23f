import Mathlib.Data.Fin.Tuple.Basic
import Mathlib.Data.Finset.Basic

/-!
# A controller with fixed priorities

Requests on `n` levels, level 0 first. The next level to be served is the first that requests, is not
masked, and has no level in service at or before it (`next`). Serving it keeps its level in service
until an end of interrupt, which is for the first level in service; for the level served last this takes back
what serving it did (`eoi_inService`).
-/

namespace Lib

structure Arbiter (n : Nat) where
  requests : Finset (Fin n)
  inService : Finset (Fin n)
  deriving DecidableEq

namespace Arbiter
variable {n : Nat}

/-- A level that can be served. -/
def Ready (a : Arbiter n) (masked : Fin n → Bool) (i : Fin n) : Prop :=
  i ∈ a.requests ∧ masked i = false ∧ ∀ j ≤ i, j ∉ a.inService

instance decidableReady (a : Arbiter n) (masked : Fin n → Bool) (i : Fin n) :
    Decidable (a.Ready masked i) :=
  inferInstanceAs (Decidable (_ ∧ _ ∧ _))

def next (a : Arbiter n) (masked : Fin n → Bool) : Option (Fin n) :=
  Fin.find? fun i => decide (a.Ready masked i)

def request (a : Arbiter n) (i : Fin n) : Arbiter n := { a with requests := insert i a.requests }

def ack (a : Arbiter n) (i : Fin n) : Arbiter n where
  requests := a.requests.erase i
  inService := insert i a.inService

/-- The end of interrupt that names no level. -/
def eoi (a : Arbiter n) : Arbiter n :=
  match Fin.find? fun i => decide (i ∈ a.inService) with
  | some i => { a with inService := a.inService.erase i }
  | none => a

variable {a : Arbiter n} {masked : Fin n → Bool} {i j : Fin n}

theorem next_eq_some_iff :
    a.next masked = some i ↔ a.Ready masked i ∧ ∀ j < i, ¬a.Ready masked j := by
  simp only [next, Fin.find?_eq_some_iff, decide_eq_true_eq, decide_eq_false_iff_not]

theorem eoi_requests (a : Arbiter n) : a.eoi.requests = a.requests := by
  unfold eoi
  split
  · rfl
  · rfl

/-- The end of interrupt for the level that was served last, whatever has been requested since. -/
theorem eoi_inService {b : Arbiter n} (hb : b.inService = insert i a.inService)
    (hfree : ∀ j ≤ i, j ∉ a.inService) : b.eoi.inService = a.inService := by
  have hfind : (Fin.find? fun j => decide (j ∈ b.inService)) = some i := by
    rw [Fin.find?_eq_some_iff, hb]
    refine ⟨decide_eq_true (Finset.mem_insert_self ..), fun j hj => decide_eq_false ?_⟩
    rw [Finset.mem_insert, not_or]
    exact ⟨hj.ne, hfree j hj.le⟩
  rw [eoi, hfind]
  show b.inService.erase i = a.inService
  rw [hb, Finset.erase_insert (hfree i le_rfl)]

end Arbiter

end Lib
