import Mathlib.Data.List.Nodup
import Mathlib.Logic.Function.Basic
import Mathlib.Data.Fintype.Card

/-!
# Linked chains

`Chain next nul a l`: following `next` from `a` visits exactly the nodes of `l`, in order, and then
reaches `nul`. The links are a function, so a chain is determined by its start and never visits a
node twice (`Chain.nodup`).
-/

namespace Lib

variable {α : Type} {next next' : α → α} {nul : α}

/-- Following `next` from the start visits the listed nodes and ends at `nul`. -/
def Chain (next : α → α) (nul : α) : α → List α → Prop
  | a, [] => a = nul
  | a, b :: l => a = b ∧ a ≠ nul ∧ Chain next nul (next a) l

namespace Chain

theorem nil_iff {l : List α} : Chain next nul nul l ↔ l = [] := by
  cases l with
  | nil => simp [Chain]
  | cons b l => simp [Chain]

theorem cons_iff {a b : α} {l : List α} :
    Chain next nul a (b :: l) ↔ a = b ∧ b ≠ nul ∧ Chain next nul (next b) l := by
  constructor
  · rintro ⟨rfl, hne, hl⟩
    exact ⟨rfl, hne, hl⟩
  · rintro ⟨rfl, hne, hl⟩
    exact ⟨rfl, hne, hl⟩

theorem unique : ∀ {a : α} {l l' : List α}, Chain next nul a l → Chain next nul a l' → l = l'
  | _, [], l', h, h' => by
    rw [show _ = nul from h] at h'
    exact (nil_iff.mp h').symm
  | a, b :: l, [], h, h' => absurd h' h.2.1
  | a, b :: l, b' :: l', h, h' => by
    rw [← h.1, ← h'.1, unique h.2.2 h'.2.2]

/-- The node after a prefix starts the chain of the rest. -/
theorem suffix : ∀ {a : α} {l : List α}, Chain next nul a l → ∀ x ∈ l,
    ∃ l', Chain next nul x l' ∧ l'.length ≤ l.length
  | a, b :: l, h, x, hx => by
    rcases List.mem_cons.mp hx with rfl | hx
    · exact ⟨x :: l, ⟨rfl, h.1 ▸ h.2.1, h.1 ▸ h.2.2⟩, le_refl _⟩
    · obtain ⟨l', hl', hlen⟩ := h.2.2.suffix x hx
      exact ⟨l', hl', by simp only [List.length_cons]; omega⟩

/-- A chain that ends visits no node twice: the rest of the chain from a repeated node would be
both itself and shorter. -/
theorem nodup : ∀ {a : α} {l : List α}, Chain next nul a l → l.Nodup
  | _, [], _ => List.nodup_nil
  | a, b :: l, h => by
    refine List.nodup_cons.mpr ⟨fun hb => ?_, h.2.2.nodup⟩
    obtain ⟨l', hl', hlen⟩ := h.2.2.suffix b hb
    have heq : b :: l = l' := unique (h.1 ▸ h) hl'
    have := congrArg List.length heq
    simp only [List.length_cons] at this
    omega

theorem ne_nul : ∀ {a : α} {l : List α}, Chain next nul a l → ∀ x ∈ l, x ≠ nul
  | a, b :: l, h, x, hx => by
    rcases List.mem_cons.mp hx with rfl | hx
    · exact h.1 ▸ h.2.1
    · exact h.2.2.ne_nul x hx

/-- Only the links of the visited nodes matter. -/
theorem congr : ∀ {a : α} {l : List α}, Chain next nul a l → (∀ x ∈ l, next' x = next x) →
    Chain next' nul a l
  | _, [], h, _ => h
  | a, b :: l, h, heq => by
    refine ⟨h.1, h.2.1, ?_⟩
    rw [heq a (h.1 ▸ List.mem_cons_self)]
    exact h.2.2.congr fun x hx => heq x (List.mem_cons_of_mem b hx)

/-- A node whose link is the old start becomes the new start. -/
theorem push {a b : α} {l : List α} (h : Chain next nul a l) (hb : b ≠ nul) (hlink : next' b = a)
    (heq : ∀ x ∈ l, next' x = next x) : Chain next' nul b (b :: l) :=
  ⟨rfl, hb, hlink ▸ h.congr heq⟩

/-- The last node links to `nul`. -/
theorem getLast_link : ∀ {a : α} {l : List α}, Chain next nul a l → ∀ x ∈ l.getLast?, next x = nul
  | a, [b], h, x, hx => by
    obtain rfl : b = x := by simpa using hx
    exact h.1 ▸ h.2.2
  | a, b :: c :: l, h, x, hx => h.2.2.getLast_link x (by simpa using hx)

theorem single {b : α} (hb : b ≠ nul) (hlink : next b = nul) : Chain next nul b [b] :=
  ⟨rfl, hb, hlink⟩

/-- A node linked behind the last one becomes the last. -/
theorem snoc {b c : α} (hc : c ≠ nul) (hb : next' b = c) (hlink : next' c = nul) :
    ∀ {a : α} {l : List α}, Chain next nul a (l ++ [b]) → (∀ x ∈ l, next' x = next x) →
      Chain next' nul a (l ++ [b] ++ [c])
  | a, [], h, _ => by
    refine ⟨h.1, h.2.1, ?_⟩
    rw [show a = b from h.1, hb]
    exact single hc hlink
  | a, x :: l, h, heq => by
    refine ⟨h.1, h.2.1, ?_⟩
    rw [heq a (h.1 ▸ List.mem_cons_self)]
    exact snoc hc hb hlink h.2.2 fun y hy => heq y (List.mem_cons_of_mem x hy)

theorem eq_nul_iff {a : α} {l : List α} (h : Chain next nul a l) : a = nul ↔ l = [] := by
  constructor
  · rintro rfl
    exact nil_iff.mp h
  · rintro rfl
    exact h

end Chain

end Lib
