import Mathlib.Data.List.Basic

/-!
# How kernel code can fail to return

`PANIC` halts the machine, a loop may never end, and a signed overflow or the use of a null pointer
has no behaviour in C. A kernel function that can do one of these returns in `Except Stop`.
-/

namespace TuixOS

inductive Stop
  /-- `PANIC(msg)`: interrupts off and halted for good. -/
  | panic (msg : String)
  /-- A loop that did not end within its fuel, or never ends. -/
  | diverge
  /-- A signed overflow. -/
  | overflow
  /-- A field of a null pointer, or another exception of the CPU in the kernel. -/
  | fault
  deriving DecidableEq, Repr

abbrev Res (α : Type) := Except Stop α

theorem ok_bind {α β : Type} (a : α) (f : α → Res β) : (Except.ok a >>= f) = f a := rfl

/-- A computation that returned a result did so in both halves of a bind. -/
theorem bind_eq_ok {α β : Type} {x : Res α} {f : α → Res β} {b : β} :
    (x >>= f) = .ok b ↔ ∃ a, x = .ok a ∧ f a = .ok b := by
  cases x with
  | error e => simp [bind, Except.bind]
  | ok a => simp [bind, Except.bind]

end TuixOS
