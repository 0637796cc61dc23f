import TuixOS.Lib.Bytes
import TuixOS.Lib.Chain
import TuixOS.Lib.Run

/-!
# Linked queues: `kernel/sys/queue.c`

The nodes and the queues are maps from addresses to their fields. Against them stand the lists of
the queues that have been set up (`Queues`): `enqueue` puts its node at the end of one list,
`dequeue` takes the first node off. `queue_fifo` says that any calls on any number of queues do on
the heap what they do on the lists; a node moved into a second queue spoils the first one only.
-/

namespace TuixOS

open Lib

/-- `node->next`, `q->head` and `q->tail` at every address, and what has been printed. -/
structure QueueHeap where
  next : Word → Word
  head : Word → Word
  tail : Word → Word
  serial : List String

namespace QueueHeap

def setNext (h : QueueHeap) (node a : Word) : QueueHeap :=
  { h with next := Function.update h.next node a }

def setHead (h : QueueHeap) (q a : Word) : QueueHeap :=
  { h with head := Function.update h.head q a }

def setTail (h : QueueHeap) (q a : Word) : QueueHeap :=
  { h with tail := Function.update h.tail q a }

def print (h : QueueHeap) (text : String) : QueueHeap := { h with serial := h.serial ++ [text] }

section Projections
variable (h : QueueHeap) (p a : Word)

@[simp] theorem setNext_next : (h.setNext p a).next = Function.update h.next p a := rfl
@[simp] theorem setNext_head : (h.setNext p a).head = h.head := rfl
@[simp] theorem setNext_tail : (h.setNext p a).tail = h.tail := rfl
@[simp] theorem setHead_next : (h.setHead p a).next = h.next := rfl
@[simp] theorem setHead_head : (h.setHead p a).head = Function.update h.head p a := rfl
@[simp] theorem setHead_tail : (h.setHead p a).tail = h.tail := rfl
@[simp] theorem setTail_next : (h.setTail p a).next = h.next := rfl
@[simp] theorem setTail_head : (h.setTail p a).head = h.head := rfl
@[simp] theorem setTail_tail : (h.setTail p a).tail = Function.update h.tail p a := rfl

end Projections

end QueueHeap

def enqueue (q node : Word) (h : QueueHeap) : QueueHeap :=
  if q = 0 ∨ node = 0 then h.print "enqueue操作失败,指针不能为NULL\n"
  else
    let h := h.setNext node 0
    let h := if h.tail q = 0 then h.setHead q node else h.setNext (h.tail q) node
    h.setTail q node

def dequeue (q : Word) (h : QueueHeap) : Word × QueueHeap :=
  if q = 0 ∨ h.head q = 0 then (0, h.print "dequeue操作失败,指针不能为NULL\n")
  else
    let head := h.head q
    let h := h.setHead q (h.next (h.head q))
    let h := h.setNext head 0
    let h := if h.head q = 0 then h.setTail q 0 else h
    (head, h)

def queueEmpty (q : Word) (h : QueueHeap) : Bool := q = 0 ∨ h.head q = 0

def queuePeek (q : Word) (h : QueueHeap) : Word := if queueEmpty q h then 0 else h.head q

def queueInit (q : Word) (h : QueueHeap) : QueueHeap :=
  if q ≠ 0 then (h.setHead q 0).setTail q 0 else h

/-! ## The queues as lists -/

/-- The list of every queue that has been set up. -/
abbrev Queues := Word → Option (List Word)

inductive QueueOp
  | init (q : Word)
  | enqueue (q node : Word)
  | dequeue (q : Word)
  | peek (q : Word)
  deriving DecidableEq

namespace QueueOp

/-- The call on the heap, with what it returns. -/
def exec : QueueOp → QueueHeap → Option Word × QueueHeap
  | init q, h => (none, queueInit q h)
  | enqueue q node, h => (none, TuixOS.enqueue q node h)
  | dequeue q, h => (some (TuixOS.dequeue q h).1, (TuixOS.dequeue q h).2)
  | peek q, h => (some (queuePeek q h), h)

/-- The callers pass a queue that has been set up, and a node that is not in it. -/
def Allowed : QueueOp → Queues → Prop
  | init q, _ => q ≠ 0
  | enqueue q node, qs => node ≠ 0 ∧ ∃ l, qs q = some l ∧ node ∉ l
  | dequeue q, qs | peek q, qs => ∃ l, qs q = some l

/-- The lists after the call. A queue whose node goes into another queue is no longer one. -/
def apply : QueueOp → Queues → Queues
  | init q, qs => Function.update qs q (some [])
  | enqueue q node, qs => fun r =>
    if r = q then (qs q).map (· ++ [node]) else (qs r).filter (node ∉ ·)
  | dequeue q, qs => Function.update qs q ((qs q).map List.tail)
  | peek _, qs => qs

/-- What the call returns; 0 is `NULL`. -/
def result : QueueOp → Queues → Option Word
  | init _, _ | enqueue _ _, _ => none
  | dequeue q, qs | peek q, qs => some (((qs q).bind List.head?).getD 0)

end QueueOp

/-- A call on the heap, with the lists it stands for. -/
def QueueStep (s : QueueHeap × Queues) (op : QueueOp) (s' : QueueHeap × Queues) : Prop :=
  op.Allowed s.2 ∧ s' = ((op.exec s.1).2, op.apply s.2)

/-- The queue at `q` holds the list `l`. -/
structure QueueRep (h : QueueHeap) (q : Word) (l : List Word) : Prop where
  ne : q ≠ 0
  chain : Chain h.next 0 (h.head q) l
  tail : h.tail q = l.getLast?.getD 0

/-- The head, the tail and the links of a queue at `r` with the list `l` are as they were. -/
structure Undisturbed (h h' : QueueHeap) (r : Word) (l : List Word) : Prop where
  head : h'.head r = h.head r
  tail : h'.tail r = h.tail r
  next : ∀ x ∈ l, h'.next x = h.next x

/-- The queues hold their lists, and no node is in two of them. -/
structure QueueInv (h : QueueHeap) (qs : Queues) : Prop where
  rep : ∀ q l, qs q = some l → QueueRep h q l
  disjoint : ∀ q r l l', qs q = some l → qs r = some l' → q ≠ r → l.Disjoint l'

section Ops
variable {h : QueueHeap} {q r node : Word} {l l' : List Word}

theorem QueueRep.head_eq (hq : QueueRep h q l) : h.head q = l.head?.getD 0 := by
  cases l with
  | nil => exact hq.chain
  | cons x l => exact hq.chain.1

/-- `dequeue` and `queue_empty` test for the empty queue by its head. -/
theorem QueueRep.head_iff (hq : QueueRep h q l) : h.head q = 0 ↔ l = [] :=
  hq.chain.eq_nul_iff

/-- `enqueue` tests for it by its tail. -/
theorem QueueRep.tail_iff (hq : QueueRep h q l) : h.tail q = 0 ↔ l = [] := by
  rw [hq.tail]
  rcases l.eq_nil_or_concat' with rfl | ⟨l, x, rfl⟩
  · simp
  · have hx : x ≠ 0 := hq.chain.ne_nul x (by simp)
    simpa using hx

theorem QueueRep.keep {h' : QueueHeap} (hr : QueueRep h r l) (hkeep : Undisturbed h h' r l) :
    QueueRep h' r l where
  ne := hr.ne
  chain := by
    rw [hkeep.head]
    exact hr.chain.congr hkeep.next
  tail := hkeep.tail.trans hr.tail

theorem queueInit_rep (hq : q ≠ 0) : QueueRep (queueInit q h) q [] := by
  rw [queueInit, if_pos hq]
  exact ⟨hq, by simp [Chain], by simp⟩

theorem queueInit_frame (hne : q ≠ r) : Undisturbed h (queueInit q h) r l := by
  unfold queueInit
  split_ifs
  · exact ⟨by simp [hne.symm], by simp [hne.symm], fun x _ => rfl⟩
  · exact ⟨rfl, rfl, fun x _ => rfl⟩

/-! ### `enqueue` -/

theorem enqueue_empty (hq : q ≠ 0) (hnode : node ≠ 0) (htail : h.tail q = 0) :
    enqueue q node h = ((h.setNext node 0).setHead q node).setTail q node := by
  rw [enqueue, if_neg (not_or.mpr ⟨hq, hnode⟩)]
  simp only [QueueHeap.setNext_tail, htail, if_true]

theorem enqueue_nonempty (hq : q ≠ 0) (hnode : node ≠ 0) (htail : h.tail q ≠ 0) :
    enqueue q node h = ((h.setNext node 0).setNext (h.tail q) node).setTail q node := by
  rw [enqueue, if_neg (not_or.mpr ⟨hq, hnode⟩)]
  simp only [QueueHeap.setNext_tail, htail, if_false]

theorem enqueue_rep (hq : QueueRep h q l) (hnode : node ≠ 0) (hl : node ∉ l) :
    QueueRep (enqueue q node h) q (l ++ [node]) := by
  rcases l.eq_nil_or_concat' with rfl | ⟨l, x, rfl⟩
  · rw [enqueue_empty hq.ne hnode (hq.tail_iff.mpr rfl)]
    have hsingle : Chain (Function.update h.next node 0) 0 node [node] :=
      Chain.single hnode (Function.update_self node 0 h.next)
    exact ⟨hq.ne, by simpa using hsingle, by simp⟩
  · have htail : h.tail q = x := by simpa using hq.tail
    have hne : node ≠ x := fun he => hl (by simp [he])
    have hnd := hq.chain.nodup
    rw [enqueue_nonempty hq.ne hnode (hq.tail_iff.not.mpr (by simp)), htail]
    refine ⟨hq.ne, ?_, by simp⟩
    refine hq.chain.snoc hnode (by simp) (by simp [hne]) fun y hy => ?_
    have hyx : y ≠ x := by
      rintro rfl
      exact (List.nodup_append.mp hnd).2.2 y hy y (by simp) rfl
    have hyn : y ≠ node := by
      rintro rfl
      exact hl (List.mem_append_left _ hy)
    simp [hyx, hyn]

/-- A queue that the node is not in, and that shares none with the first, is not disturbed. -/
theorem enqueue_frame (hq : QueueRep h q l) (hnode : node ≠ 0) (hne : q ≠ r)
    (hdisj : l.Disjoint l') (hl' : node ∉ l') : Undisturbed h (enqueue q node h) r l' := by
  by_cases htail : h.tail q = 0
  · rw [enqueue_empty hq.ne hnode htail]
    refine ⟨by simp [hne.symm], by simp [hne.symm], fun x hx => ?_⟩
    have hxn : x ≠ node := by
      rintro rfl
      exact hl' hx
    simp [hxn]
  · rw [enqueue_nonempty hq.ne hnode htail]
    refine ⟨by simp, by simp [hne.symm], fun x hx => ?_⟩
    have hxn : x ≠ node := by
      rintro rfl
      exact hl' hx
    have hxt : x ≠ h.tail q := by
      rintro rfl
      obtain ⟨l, y, rfl⟩ := (l.eq_nil_or_concat').resolve_left (hq.tail_iff.not.mp htail)
      have hy : h.tail q = y := by simpa using hq.tail
      exact hdisj (by simp [hy]) hx
    simp [hxn, hxt]

/-! ### `dequeue` -/

theorem dequeue_empty (hq : QueueRep h q []) :
    dequeue q h = (0, h.print "dequeue操作失败,指针不能为NULL\n") := by
  rw [dequeue, if_pos (Or.inr (hq.head_iff.mpr rfl))]

/-- The heap behind the `dequeue` of a node `x`. -/
def dequeued (q x : Word) (h : QueueHeap) : QueueHeap :=
  let h' := (h.setHead q (h.next x)).setNext x 0
  if h.next x = 0 then h'.setTail q 0 else h'

theorem dequeue_cons {x : Word} (hq : QueueRep h q (x :: l)) :
    dequeue q h = (x, dequeued q x h) := by
  have hhead : h.head q = x := hq.chain.1
  have hx : x ≠ 0 := hq.chain.ne_nul x (by simp)
  rw [dequeue, if_neg (not_or.mpr ⟨hq.ne, hhead ▸ hx⟩), hhead]
  simp [dequeued]

section Dequeued
variable {x : Word}

theorem dequeued_next : (dequeued q x h).next = Function.update h.next x 0 := by
  unfold dequeued
  split_ifs <;> rfl

theorem dequeued_head : (dequeued q x h).head = Function.update h.head q (h.next x) := by
  unfold dequeued
  split_ifs <;> rfl

theorem dequeued_tail : (dequeued q x h).tail =
    if h.next x = 0 then Function.update h.tail q 0 else h.tail := by
  unfold dequeued
  split_ifs <;> rfl

theorem dequeued_rep (hq : QueueRep h q (x :: l)) : QueueRep (dequeued q x h) q l := by
  obtain ⟨hhead, -, hl⟩ := Chain.cons_iff.mp hq.chain
  have hx : x ∉ l := (List.nodup_cons.mp hq.chain.nodup).1
  refine ⟨hq.ne, ?_, ?_⟩
  · rw [dequeued_head, dequeued_next, Function.update_self]
    refine hl.congr fun y hy => Function.update_of_ne ?_ ..
    rintro rfl
    exact hx hy
  · rw [dequeued_tail]
    by_cases hlast : h.next x = 0
    · obtain rfl := hl.eq_nul_iff.mp hlast
      rw [if_pos hlast, Function.update_self]
      rfl
    · have hne : l ≠ [] := hl.eq_nul_iff.not.mp hlast
      rw [if_neg hlast, hq.tail]
      obtain ⟨l, y, rfl⟩ := (l.eq_nil_or_concat').resolve_left hne
      rw [← List.cons_append, List.getLast?_concat, List.getLast?_concat]

theorem dequeued_frame (hne : q ≠ r) (hx : x ∉ l') : Undisturbed h (dequeued q x h) r l' := by
  refine ⟨?_, ?_, fun y hy => ?_⟩
  · rw [dequeued_head, Function.update_of_ne hne.symm]
  · rw [dequeued_tail]
    split_ifs
    · rw [Function.update_of_ne hne.symm]
    · rfl
  · rw [dequeued_next, Function.update_of_ne]
    rintro rfl
    exact hx hy

end Dequeued

theorem queuePeek_eq (hq : QueueRep h q l) : queuePeek q h = l.head?.getD 0 := by
  unfold queuePeek queueEmpty
  split_ifs with hempty
  · have hhead : h.head q = 0 := (of_decide_eq_true hempty).resolve_left hq.ne
    rw [← hq.head_eq, hhead]
  · exact hq.head_eq

end Ops

/-! ## Runs of calls -/

namespace QueueOp

/-- The queue a call is about. -/
def queue : QueueOp → Word
  | init q | enqueue q _ | dequeue q | peek q => q

/-- The call is about another queue than the one at `r`, and its node is not in that one's list. -/
def Spares (op : QueueOp) (r : Word) (l : List Word) : Prop :=
  op.queue ≠ r ∧ ∀ q node, op = .enqueue q node → node ∉ l

end QueueOp

section Steps
variable {h : QueueHeap} {qs : Queues} {op : QueueOp}

theorem QueueInv.undisturbed (hinv : QueueInv h qs) (hop : op.Allowed qs) {r : Word} {l : List Word}
    (hr : qs r = some l) (hspare : op.Spares r l) : Undisturbed h (op.exec h).2 r l := by
  obtain ⟨hne, hnode⟩ := hspare
  cases op with
  | init q => exact queueInit_frame hne
  | enqueue q node =>
    obtain ⟨hnull, l', hq, -⟩ := hop
    exact enqueue_frame (hinv.rep q l' hq) hnull hne (hinv.disjoint q r l' l hq hr hne)
      (hnode q node rfl)
  | dequeue q =>
    obtain ⟨l', hq⟩ := hop
    have hrep := hinv.rep q l' hq
    cases l' with
    | nil =>
      rw [QueueOp.exec, dequeue_empty hrep]
      exact ⟨rfl, rfl, fun _ _ => rfl⟩
    | cons x l' =>
      rw [QueueOp.exec, dequeue_cons hrep]
      exact dequeued_frame hne fun hx => hinv.disjoint q r _ l hq hr hne List.mem_cons_self hx
  | peek q => exact ⟨rfl, rfl, fun _ _ => rfl⟩

theorem QueueOp.apply_spared {r : Word} {l : List Word} (hr : qs r = some l)
    (hspare : op.Spares r l) : op.apply qs r = some l := by
  obtain ⟨hne, hnode⟩ := hspare
  have hne' := hne.symm
  cases op with
  | init q => exact (Function.update_of_ne hne' ..).trans hr
  | enqueue q node =>
    simp only [QueueOp.apply, if_neg (show r ≠ q from hne'), Option.filter_eq_some_iff,
      decide_eq_true_eq]
    exact ⟨hr, hnode q node rfl⟩
  | dequeue q => exact (Function.update_of_ne hne' ..).trans hr
  | peek q => exact hr

/-- A list after the call is that of the call's queue, or one that the call spares. -/
theorem QueueOp.apply_cases (hop : op.Allowed qs) {r : Word} {l' : List Word}
    (hr : op.apply qs r = some l') : r = op.queue ∨ qs r = some l' ∧ op.Spares r l' := by
  by_cases hne : r = op.queue
  · exact Or.inl hne
  · refine Or.inr ?_
    cases op with
    | init q =>
      rw [QueueOp.apply, Function.update_of_ne (show r ≠ q from hne)] at hr
      exact ⟨hr, Ne.symm hne, by rintro q node ⟨⟩⟩
    | enqueue q node =>
      simp only [QueueOp.apply, if_neg (show r ≠ q from hne), Option.filter_eq_some_iff,
        decide_eq_true_eq] at hr
      refine ⟨hr.1, Ne.symm hne, ?_⟩
      rintro q node ⟨⟩
      exact hr.2
    | dequeue q =>
      rw [QueueOp.apply, Function.update_of_ne (show r ≠ q from hne)] at hr
      exact ⟨hr, Ne.symm hne, by rintro q node ⟨⟩⟩
    | peek q => exact ⟨hr, Ne.symm hne, by rintro q node ⟨⟩⟩

/-- The queue of the call holds its new list, a part of the old one and the node. -/
theorem QueueInv.queue_step (hinv : QueueInv h qs) (hop : op.Allowed qs) {l' : List Word}
    (hq : op.apply qs op.queue = some l') : QueueRep (op.exec h).2 op.queue l' ∧
      ∀ x ∈ l', (∃ l, qs op.queue = some l ∧ x ∈ l) ∨ op = .enqueue op.queue x := by
  cases op with
  | init q =>
    obtain rfl : [] = l' := by simpa [QueueOp.apply, QueueOp.queue] using hq
    exact ⟨queueInit_rep hop, by simp⟩
  | enqueue q node =>
    obtain ⟨hnull, l, hl, hnode⟩ := hop
    obtain rfl : l ++ [node] = l' := by simpa [QueueOp.apply, QueueOp.queue, hl] using hq
    refine ⟨enqueue_rep (hinv.rep q l hl) hnull hnode, fun x hx => ?_⟩
    rcases List.mem_append.mp hx with hx | hx
    · exact Or.inl ⟨l, hl, hx⟩
    · obtain rfl := List.mem_singleton.mp hx
      exact Or.inr rfl
  | dequeue q =>
    obtain ⟨l, hl⟩ := hop
    have hrep := hinv.rep q l hl
    obtain rfl : l.tail = l' := by simpa [QueueOp.apply, QueueOp.queue, hl] using hq
    refine ⟨?_, fun x hx => Or.inl ⟨l, hl, List.mem_of_mem_tail hx⟩⟩
    cases l with
    | nil =>
      rw [QueueOp.exec, dequeue_empty hrep]
      exact hrep.keep ⟨rfl, rfl, fun _ _ => rfl⟩
    | cons x l =>
      rw [QueueOp.exec, dequeue_cons hrep]
      exact dequeued_rep hrep
  | peek q => exact ⟨hinv.rep q l' hq, fun x hx => Or.inl ⟨l', hq, hx⟩⟩

theorem queueInv_step (hinv : QueueInv h qs) (hop : op.Allowed qs) :
    QueueInv (op.exec h).2 (op.apply qs) where
  rep r l hr := by
    rcases op.apply_cases hop hr with rfl | ⟨hr, hspare⟩
    · exact (hinv.queue_step hop hr).1
    · exact (hinv.rep r l hr).keep (hinv.undisturbed hop hr hspare)
  disjoint := by
    -- a node of a spared list was not in the call's queue and is not the node put there
    have hspared : ∀ r l l', op.apply qs op.queue = some l → qs r = some l' → op.Spares r l' →
        l.Disjoint l' := by
      intro r l l' hl hr hspare x hx hx'
      rcases (hinv.queue_step hop hl).2 x hx with ⟨l₀, hl₀, hx₀⟩ | hnode
      · exact hinv.disjoint op.queue r l₀ l' hl₀ hr hspare.1 hx₀ hx'
      · exact hspare.2 op.queue x hnode hx'
    intro q r l l' hl hl' hne
    rcases op.apply_cases hop hl with rfl | ⟨hq, hspare⟩
    · rcases op.apply_cases hop hl' with rfl | ⟨hr, hspare'⟩
      · exact absurd rfl hne
      · exact hspared r l l' hl hr hspare'
    · rcases op.apply_cases hop hl' with rfl | ⟨hr, -⟩
      · exact (hspared q l' l hl' hq hspare).symm
      · exact hinv.disjoint q r l l' hq hr hne

/-- A call returns what it returns on the lists. -/
theorem QueueInv.result (hinv : QueueInv h qs) (hop : op.Allowed qs) :
    (op.exec h).1 = op.result qs := by
  cases op with
  | init q => rfl
  | enqueue q node => rfl
  | dequeue q =>
    obtain ⟨l, hl⟩ := hop
    have hrep := hinv.rep q l hl
    rw [QueueOp.result, hl]
    cases l with
    | nil =>
      rw [QueueOp.exec, dequeue_empty hrep]
      rfl
    | cons x l =>
      rw [QueueOp.exec, dequeue_cons hrep]
      rfl
  | peek q =>
    obtain ⟨l, hl⟩ := hop
    rw [QueueOp.exec, QueueOp.result, queuePeek_eq (hinv.rep q l hl), hl]
    rfl

/-- A dequeued node is isolated. -/
theorem QueueInv.isolated {q x : Word} (hinv : QueueInv h qs) (hq : ∃ l, qs q = some l)
    (hx : (dequeue q h).1 = x) (hne : x ≠ 0) : (dequeue q h).2.next x = 0 := by
  obtain ⟨l, hl⟩ := hq
  have hrep := hinv.rep q l hl
  cases l with
  | nil =>
    rw [dequeue_empty hrep] at hx
    exact absurd hx.symm hne
  | cons y l =>
    rw [dequeue_cons hrep] at hx ⊢
    subst hx
    rw [dequeued_next, Function.update_self]

end Steps

theorem queueInv_run {h₀ h : QueueHeap} {qs : Queues} {ops : List QueueOp}
    (hrun : Run QueueStep (h₀, fun _ => none) ops (h, qs)) : QueueInv h qs := by
  refine hrun.state_invariant (I := fun s => QueueInv s.1 s.2) ⟨by simp, by simp⟩ ?_
  rintro op ⟨h, qs⟩ s' hinv ⟨hop, rfl⟩
  exact queueInv_step hinv hop

/-- **The queues are FIFO.** After any calls on any number of queues, each queue that has been set up
is the chain of its list, from its head to its tail, and both are `NULL` exactly if the list is
empty; the next call returns what it returns on the lists, isolates a node that it takes off, and
leaves a queue that it spares as it is. -/
theorem queue_fifo {h₀ h : QueueHeap} {qs : Queues} {ops : List QueueOp}
    (hrun : Run QueueStep (h₀, fun _ => none) ops (h, qs)) :
    (∀ q l, qs q = some l → Chain h.next 0 (h.head q) l ∧ l.Nodup ∧
      h.tail q = l.getLast?.getD 0 ∧ (∀ x ∈ l.getLast?, h.next x = 0) ∧
      (h.head q = 0 ↔ l = []) ∧ (h.tail q = 0 ↔ l = [])) ∧
    ∀ op : QueueOp, op.Allowed qs → (op.exec h).1 = op.result qs ∧
      (∀ q x, op = .dequeue q → (op.exec h).1 = some x → x ≠ 0 → (op.exec h).2.next x = 0) ∧
      ∀ r l, qs r = some l → op.Spares r l → op.apply qs r = some l ∧
        Undisturbed h (op.exec h).2 r l := by
  have hinv := queueInv_run hrun
  refine ⟨fun q l hl => ?_, fun op hop => ⟨hinv.result hop, ?_, fun r l hr hspare => ⟨?_, ?_⟩⟩⟩
  · have hrep := hinv.rep q l hl
    exact ⟨hrep.chain, hrep.chain.nodup, hrep.tail, hrep.chain.getLast_link, hrep.head_iff,
      hrep.tail_iff⟩
  · rintro q x rfl hx hne
    exact hinv.isolated hop (Option.some.inj hx) hne
  · exact op.apply_spared hr hspare
  · exact hinv.undisturbed hop hr hspare

/-- A node goes through one queue into another. -/
theorem queue_fifo_moved : ∃ h qs, Run QueueStep
    (⟨fun _ => 7, fun _ => 7, fun _ => 7, []⟩, fun _ => none)
    [.init 0x10, .init 0x20, .enqueue 0x10 0x100, .enqueue 0x10 0x200, .dequeue 0x10,
      .enqueue 0x20 0x100] (h, qs) ∧
    Chain h.next 0 (h.head 0x10) [0x200] ∧ Chain h.next 0 (h.head 0x20) [0x100] := by
  have hrun : Run QueueStep (⟨fun _ => 7, fun _ => 7, fun _ => 7, []⟩, fun _ => none)
      [.init 0x10, .init 0x20, .enqueue 0x10 0x100, .enqueue 0x10 0x200, .dequeue 0x10,
        .enqueue 0x20 0x100] _ :=
    .cons ⟨show (0x10 : Word) ≠ 0 by decide, rfl⟩ <|
      .cons ⟨show (0x20 : Word) ≠ 0 by decide, rfl⟩ <|
      .cons ⟨⟨by decide, [], rfl, by decide⟩, rfl⟩ <|
      .cons ⟨⟨by decide, [0x100], rfl, by decide⟩, rfl⟩ <|
      .cons ⟨⟨[0x100, 0x200], rfl⟩, rfl⟩ <|
      .cons ⟨⟨by decide, [], rfl, by decide⟩, rfl⟩ .nil
  obtain ⟨hqueues, -⟩ := queue_fifo hrun
  exact ⟨_, _, hrun, (hqueues 0x10 [0x200] rfl).1, (hqueues 0x20 [0x100] rfl).1⟩

end TuixOS
