import TuixOS.Ide

/-!
# Failed reads: the error path of `ide_handler`

`ide_wait(1)` tells the handler of a device error, and the handler leaves the data of the block out
then; the flags of the buffer it sets in any case. Here the device may answer anything and need
never be ready, so an interrupt of a run is one whose handler returned, and the part of the handler
up to the flags is a computation of its own (`ideComplete`). `read_valid_iff` says for which runs a
valid buffer is a buffer that was read.
-/

namespace TuixOS

open Lib

namespace Ide

/-- The status says that the transfer failed. -/
def DeviceError (r : BitVec 8) : Prop := r &&& (ideDf ||| ideErr) ≠ 0

instance (r : BitVec 8) : Decidable (DeviceError r) := inferInstanceAs (Decidable (_ ≠ _))

/-- The buffer waits for its block to be read. -/
def Buf.Reading (v : Buf) : Prop := v.flags &&& bDirty = 0

instance (v : Buf) : Decidable v.Reading := inferInstanceAs (Decidable (_ = _))

def Buf.Valid (v : Buf) : Prop := v.flags &&& bValid ≠ 0

/-- The status that ends a wait for the device. -/
def PollAnswers (d : Device) (r : BitVec 8) : Prop :=
  ∃ n, (∀ m < n, ¬IsReady (d.status m)) ∧ IsReady (d.status n) ∧ r = d.status n

theorem PollAnswers.unique {d : Device} {r r' : BitVec 8} (h : PollAnswers d r)
    (h' : PollAnswers d r') : r = r' := by
  obtain ⟨n, hbefore, hready, rfl⟩ := h
  obtain ⟨n', hbefore', hready', rfl⟩ := h'
  rcases lt_trichotomy n n' with hlt | rfl | hlt
  · exact absurd hready (hbefore' n hlt)
  · rfl
  · exact absurd hready' (hbefore n' hlt)

theorem ideWaitLoop_polls {fuel : Nat} : ∀ {d d' : Device} {r : BitVec 8},
    ideWaitLoop fuel d = .ok (r, d') → PollAnswers d r ∧ ∃ n, d' = d.skip n := by
  induction fuel with
  | zero =>
    intro d d' r h
    cases h
  | succ fuel ih =>
    intro d d' r h
    by_cases hready : IsReady (d.status 0)
    · simp only [ideWaitLoop, Device.inStatus, hready, not_true_eq_false, if_false] at h
      cases h
      exact ⟨⟨0, fun m hm => absurd hm (Nat.not_lt_zero m), hready, rfl⟩, 1, rfl⟩
    · simp only [ideWaitLoop, Device.inStatus, hready, not_false_eq_true, if_true] at h
      obtain ⟨⟨n, hbefore, hlast, rfl⟩, k, rfl⟩ := ih h
      refine ⟨⟨n + 1, fun m hm => ?_, hlast, rfl⟩, k + 1, ?_⟩
      · cases m with
        | zero => exact hready
        | succ m => exact hbefore m (by omega)
      · simp [Device.skip, Nat.add_assoc]

theorem ideWait_polls {fuel : Nat} {d d' : Device} {errno res : Int}
    (h : ideWait fuel errno d = .ok (res, d')) : ∃ r n, PollAnswers d r ∧ d' = d.skip n ∧
      res = if errno ≠ 0 ∧ DeviceError r then -1 else 0 := by
  obtain ⟨⟨r, d₁⟩, hloop, h⟩ := bind_eq_ok.mp h
  obtain ⟨hpoll, n, rfl⟩ := ideWaitLoop_polls hloop
  refine ⟨r, n, hpoll, ?_⟩
  by_cases herr : errno ≠ 0 ∧ DeviceError r
  · rw [if_pos herr]
    have hret : ((-1, d.skip n) : Int × Device) = (res, d') :=
      Except.ok.inj ((if_pos herr).symm.trans h)
    cases hret
    exact ⟨rfl, rfl⟩
  · rw [if_neg herr]
    have hret : ((0, d.skip n) : Int × Device) = (res, d') :=
      Except.ok.inj ((if_neg herr).symm.trans h)
    cases hret
    exact ⟨rfl, rfl⟩

/-! ## The handler up to the flags -/

/-- The block that the data port has to offer. -/
def Device.block (d : Device) : Fin (bSize / 4) → Word := (d.insl (bSize / 4)).1

/-- A buffer at the end of its request. -/
def Buf.finish (v : Buf) (words : Fin (bSize / 4) → Word) (r : BitVec 8) : Buf :=
  { v with
    flags := doneFlags v.flags
    data := if v.Reading ∧ ¬DeviceError r then words else v.data }

/-- Every request ends with a valid buffer. -/
theorem Buf.finish_valid (v : Buf) (words : Fin (bSize / 4) → Word) (r : BitVec 8) :
    (v.finish words r).Valid := by
  intro h
  have hbit : ((v.flags ||| bValid) &&& ~~~bDirty &&& bValid).getLsbD 1 = false := by
    rw [show (v.flags ||| bValid) &&& ~~~bDirty &&& bValid = 0 from h]
    rfl
  simp [bValid, bDirty] at hbit

/-- With a device error the data are what they were. -/
theorem Buf.finish_data_of_error {v : Buf} {words : Fin (bSize / 4) → Word} {r : BitVec 8}
    (herr : DeviceError r) : (v.finish words r).data = v.data :=
  if_neg fun h => h.2 herr

section Handler
variable {K : Type} {s s' : State K} {b : Word}

theorem ideRead_ok {fuel : Nat} (h : ideRead fuel b s = .ok s') :
    ∃ r d, ((s.buf b).Reading → PollAnswers s.device r) ∧ d.sent = s.device.sent ∧
      s' = { s with
        device := d
        buf := Function.update s.buf b { s.buf b with
          data := if (s.buf b).Reading ∧ ¬DeviceError r then s.device.block else (s.buf b).data } } := by
  by_cases hreading : (s.buf b).Reading
  · have hclean : (s.buf b).flags &&& bDirty = 0 := hreading
    rw [ideRead, if_pos hclean] at h
    obtain ⟨⟨res, d⟩, hwait, h⟩ := bind_eq_ok.mp h
    obtain ⟨r, n, hpoll, rfl, rfl⟩ := ideWait_polls hwait
    by_cases herr : DeviceError r
    · have hcond : ¬((s.buf b).Reading ∧ ¬DeviceError r) := fun hboth => hboth.2 herr
      refine ⟨r, s.device.skip n, fun _ => hpoll, rfl, ?_⟩
      rw [if_neg hcond, Function.update_eq_self]
      simp only [ne_eq, one_ne_zero, not_false_eq_true, herr, and_self, if_true] at h
      exact (Except.ok.inj h).symm
    · refine ⟨r, ((s.device.skip n).insl (bSize / 4)).2, fun _ => hpoll, rfl, ?_⟩
      rw [if_pos ⟨hreading, herr⟩]
      simp only [herr, and_false, if_false] at h
      exact (Except.ok.inj h).symm
  · have hdirty : ¬(s.buf b).flags &&& bDirty = 0 := hreading
    rw [ideRead, if_neg hdirty] at h
    have hcond : ∀ r, ¬((s.buf b).Reading ∧ ¬DeviceError r) := fun r hboth => hreading hboth.1
    refine ⟨0, s.device, fun hr => absurd hr hreading, rfl, ?_⟩
    rw [if_neg (hcond 0), Function.update_eq_self]
    exact (Except.ok.inj h).symm

theorem ideStartNext_ok {fuel : Nat} (h : ideStartNext fuel s = .ok s') :
    ∃ d, s' = { s with device := d } ∧ d.sent = s.device.sent ++
      if s.queue = 0 then [] else request (s.buf s.queue) := by
  by_cases hq : s.queue = 0
  · rw [ideStartNext, if_neg (not_not.mpr hq)] at h
    refine ⟨s.device, (Except.ok.inj h).symm, ?_⟩
    rw [if_pos hq, List.append_nil]
  · rw [ideStartNext, if_pos hq] at h
    by_cases hblock : fsSize ≤ (s.buf s.queue).blockno
    · rw [ideStart, if_neg hq, if_pos hblock] at h
      cases h
    · rw [ideStart_eq hq (BitVec.not_le.mp hblock)] at h
      obtain ⟨⟨res, d⟩, hwait, h⟩ := bind_eq_ok.mp h
      obtain ⟨r, n, -, rfl, -⟩ := ideWait_polls hwait
      refine ⟨_, (Except.ok.inj h).symm, ?_⟩
      rw [if_neg hq]
      rfl

variable [DecidableEq K] {ideLock : K}

/-- The handler with a request outstanding, up to the flags of its buffer. -/
def ideComplete (ideLock : K) (fuel : Nat) (s : State K) : Res (State K) := do
  let cpu ← acquire (.other ideLock) s.kernel.cpu
  let s := s.setCpu cpu
  let b := s.queue
  let s := { s with queue := (s.buf b).qnext }
  let s ← ideRead fuel b s
  let s := s.setBuf b { s.buf b with flags := (s.buf b).flags ||| bValid }
  return s.setBuf b { s.buf b with flags := (s.buf b).flags &&& ~~~bDirty }

/-- The handler behind the flags of the buffer `b`. -/
def ideResume (ideLock : K) (b : Word) (fuel : Nat) (s : State K) : Res (State K) := do
  let kernel ← wakeup b s.kernel
  let s := { s with kernel := kernel }
  let s ← ideStartNext fuel s
  let cpu ← release (.other ideLock) s.kernel.cpu
  return s.setCpu cpu

theorem ideHandler_eq_complete (fuel : Nat) (hne : s.queue ≠ 0) :
    ideHandler ideLock fuel s = ideComplete ideLock fuel s >>= ideResume ideLock s.queue fuel := by
  have hqueue : ∀ cpu, (s.setCpu cpu).queue = s.queue := fun _ => rfl
  simp only [ideHandler, ideComplete, hqueue, hne, if_false, bind_assoc, pure_bind]
  rfl

/-- Up to the flags, the handler has taken the buffer at the head from the queue and finished it. -/
theorem ideComplete_ok {fuel : Nat} (h : ideComplete ideLock fuel s = .ok s') :
    ∃ r, ((s.buf s.queue).Reading → PollAnswers s.device r) ∧
      s'.queue = (s.buf s.queue).qnext ∧ s'.device.sent = s.device.sent ∧
      s'.buf = Function.update s.buf s.queue
        ((s.buf s.queue).finish s.device.block r) := by
  obtain ⟨cpu, -, h⟩ := bind_eq_ok.mp h
  obtain ⟨s₁, hread, h⟩ := bind_eq_ok.mp h
  obtain ⟨r, d, hpoll, hsent, rfl⟩ := ideRead_ok hread
  refine ⟨r, hpoll, ?_⟩
  obtain rfl := Except.ok.inj h
  refine ⟨rfl, hsent, ?_⟩
  simp only [State.setBuf, State.setCpu, Function.update_self, Function.update_idem]
  rfl

theorem ideResume_ok {fuel : Nat} (h : ideResume ideLock b fuel s = .ok s') :
    s'.queue = s.queue ∧ s'.buf = s.buf ∧ s'.device.sent = s.device.sent ++
      if s.queue = 0 then [] else request (s.buf s.queue) := by
  obtain ⟨kernel, -, h⟩ := bind_eq_ok.mp h
  obtain ⟨s₁, hstart, h⟩ := bind_eq_ok.mp h
  obtain ⟨d, rfl, hsent⟩ := ideStartNext_ok hstart
  obtain ⟨cpu, -, h⟩ := bind_eq_ok.mp h
  obtain rfl := Except.ok.inj h
  exact ⟨rfl, rfl, hsent⟩

theorem ideHandler_ok {fuel : Nat} (h : ideHandler ideLock fuel s = .ok s') :
    (s.queue = 0 → s'.queue = s.queue ∧ s'.buf = s.buf ∧ s'.device = s.device) ∧
    (s.queue ≠ 0 → ∃ s₁, ideComplete ideLock fuel s = .ok s₁ ∧ s'.queue = s₁.queue ∧
      s'.buf = s₁.buf ∧ s'.device.sent = s₁.device.sent ++
        if s₁.queue = 0 then [] else request (s₁.buf s₁.queue)) := by
  refine ⟨fun hq => ?_, fun hq => ?_⟩
  · obtain ⟨cpu, -, h⟩ := bind_eq_ok.mp h
    have hqueue : (s.setCpu cpu).queue = 0 := hq
    simp only [hqueue, if_true] at h
    obtain ⟨cpu', -, h⟩ := bind_eq_ok.mp h
    obtain rfl := Except.ok.inj h
    exact ⟨rfl, rfl, rfl⟩
  · rw [ideHandler_eq_complete fuel hq] at h
    obtain ⟨s₁, hcomplete, hresume⟩ := bind_eq_ok.mp h
    exact ⟨s₁, hcomplete, ideResume_ok hresume⟩

end Handler

/-! ## Runs with device errors -/

/-- What an interrupt found: the buffer at the head of the queue, what the data port had to offer,
and for a read the status that ended the wait. -/
structure Completion where
  buf : Word
  words : Fin (bSize / 4) → Word
  status : BitVec 8

inductive DiskEvent
  | irq (c : Completion)
  /-- Other code. -/
  | other

/-- The interrupt of a state would find `c`. -/
structure Finds {K : Type} (s : State K) (c : Completion) : Prop where
  buf : c.buf = s.queue
  words : c.words = s.device.block
  status : s.queue ≠ 0 → (s.buf s.queue).Reading → PollAnswers s.device c.status

/-- The interrupts are those that return; other code leaves the queue, the buffers and the device's
registers to the driver. -/
def DiskStep {K : Type} [DecidableEq K] (ideLock : K) (s : State K) : DiskEvent → State K → Prop
  | .irq c, s' => Finds s c ∧ ∃ fuel, ideHandler ideLock fuel s = .ok s'
  | .other, s' => s'.queue = s.queue ∧ s'.buf = s.buf ∧ s'.device.sent = s.device.sent

/-- Among the events is an interrupt that completes a read of the buffers `buf₀`. -/
structure ReadIn (buf₀ : Word → Buf) (as : List DiskEvent) (c : Completion) : Prop where
  mem : .irq c ∈ as
  buf : c.buf ≠ 0
  reading : (buf₀ c.buf).Reading

/-- A valid buffer has what the device transferred, and the device had no error. -/
def ValidIfRead (v : Buf) (c : Completion) : Prop :=
  v.Valid → ¬DeviceError c.status ∧ v.data = c.words

/-- The flags do not tell a failed read from a good one. -/
theorem validIfRead_finish_iff {v : Buf} {c : Completion} (hreading : v.Reading) :
    ValidIfRead (v.finish c.words c.status) c ↔ ¬DeviceError c.status := by
  refine ⟨fun h => (h (v.finish_valid _ _)).1, fun herr _ => ⟨herr, ?_⟩⟩
  exact if_pos ⟨hreading, herr⟩

/-- Where the driver stands after the events `as`: the reads among them have been finished with what
their interrupts found. -/
structure Finished {K : Type} (buf₀ : Word → Buf) (bufs : List Word) (pre : List Sent)
    (as : List DiskEvent) (s : State K) : Prop where
  progress : ∃ k, Progress buf₀ bufs pre k s ∧ ∀ c, .irq c ∈ as → c.buf ≠ 0 → c.buf ∈ bufs.take k
  finish : ∀ c, ReadIn buf₀ as c → s.buf c.buf = (buf₀ c.buf).finish c.words c.status

section Runs
variable {K : Type} [DecidableEq K] {ideLock : K} {s s' s₁ : State K} {buf₀ : Word → Buf}
  {bufs : List Word} {pre : List Sent} {as : List DiskEvent} {c : Completion} {fuel : Nat}

/-- Up to the flags, an interrupt finishes a read with what it finds. -/
theorem ideComplete_finds (hfinds : Finds s c) (hq : s.queue ≠ 0) (hreading : (s.buf s.queue).Reading)
    (h : ideComplete ideLock fuel s = .ok s₁) :
    s₁.buf = Function.update s.buf s.queue ((s.buf s.queue).finish c.words c.status) := by
  obtain ⟨r, hpoll, -, -, hbuf⟩ := ideComplete_ok h
  rw [hbuf, hfinds.words, (hfinds.status hq hreading).unique (hpoll hreading)]

/-- The buffer at the head is finished, and its successor started. -/
theorem Progress.handler {k : Nat} (h : Progress buf₀ bufs pre k s) (hnd : bufs.Nodup)
    (hq : s.queue ≠ 0) (hret : ideHandler ideLock fuel s = .ok s') :
    Progress buf₀ bufs pre (k + 1) s' := by
  obtain ⟨s₁, hcomplete, hqueue, hbuf, hsent⟩ := (ideHandler_ok hret).2 hq
  obtain ⟨r, -, hqueue₁, hsent₁, hbuf₁⟩ := ideComplete_ok hcomplete
  have hnext : s₁.buf s₁.queue = s.buf (s.buf s.queue).qnext := by
    rw [hbuf₁, hqueue₁, Function.update_of_ne (h.qnext_ne hnd hq)]
  refine h.completes hnd hq (hqueue.trans hqueue₁) (hbuf.trans hbuf₁) ?_
  rw [hsent, hsent₁, hnext, hqueue₁]

omit [DecidableEq K] in
/-- An event that serves no buffer. -/
theorem Finished.unchanged (h : Finished buf₀ bufs pre as s) {a : DiskEvent}
    (ha : ∀ c, a = .irq c → c.buf = 0) (hqueue : s'.queue = s.queue) (hbuf : s'.buf = s.buf)
    (hsent : s'.device.sent = s.device.sent) : Finished buf₀ bufs pre (as ++ [a]) s' := by
  obtain ⟨k, hprogress, hmem⟩ := h.progress
  have hold : ∀ c, .irq c ∈ as ++ [a] → c.buf ≠ 0 → .irq c ∈ as := by
    intro c hc hne
    rcases List.mem_append.mp hc with hc | hc
    · exact hc
    · exact absurd (ha c (List.mem_singleton.mp hc).symm) hne
  refine ⟨⟨k, ⟨?_, ?_, hsent.trans hprogress.sent⟩, fun c hc hne => hmem c (hold c hc hne) hne⟩,
    fun c hc => ?_⟩
  · rw [hqueue]
    exact hprogress.queue
  · rw [hbuf]
    exact hprogress.kept
  · rw [hbuf]
    exact h.finish c ⟨hold c hc.mem hc.buf, hc.buf, hc.reading⟩

/-- An interrupt that serves the buffer at the head. -/
theorem Finished.irq (h : Finished buf₀ bufs pre as s) (hnd : bufs.Nodup) (hq : s.queue ≠ 0)
    (hfinds : Finds s c) (hret : ideHandler ideLock fuel s = .ok s') :
    Finished buf₀ bufs pre (as ++ [.irq c]) s' := by
  obtain ⟨k, hprogress, hmem⟩ := h.progress
  obtain ⟨s₁, hcomplete, -, hbuf, -⟩ := (ideHandler_ok hret).2 hq
  have hserved : s.queue ∉ bufs.take k := by
    have hnd' : (bufs.take (k + 1)).Nodup := hnd.sublist (List.take_sublist _ _)
    rw [hprogress.take_succ hq, List.nodup_append] at hnd'
    exact fun hin => hnd'.2.2 _ hin _ (List.mem_singleton.mpr rfl) rfl
  refine ⟨⟨k + 1, hprogress.handler hnd hq hret, fun c' hc' hne => ?_⟩, fun c' hc' => ?_⟩
  · rw [hprogress.take_succ hq]
    rcases List.mem_append.mp hc' with hold | hnew
    · exact List.mem_append_left _ (hmem c' hold hne)
    · cases List.mem_singleton.mp hnew
      rw [hfinds.buf]
      exact List.mem_append_right _ (List.mem_singleton.mpr rfl)
  · rcases List.mem_append.mp hc'.mem with hold | hnew
    · have hother : c'.buf ≠ s.queue := fun heq => hserved (heq ▸ hmem c' hold hc'.buf)
      obtain ⟨r, -, -, -, hbuf₁⟩ := ideComplete_ok hcomplete
      rw [hbuf, hbuf₁, Function.update_of_ne hother]
      exact h.finish c' ⟨hold, hc'.buf, hc'.reading⟩
    · cases List.mem_singleton.mp hnew
      have hhead : s.buf s.queue = buf₀ c.buf := by
        rw [hprogress.head_buf hnd hq, hfinds.buf]
      have hreading : (s.buf s.queue).Reading := by
        rw [hhead]
        exact hc'.reading
      rw [hbuf, ideComplete_finds hfinds hq hreading hcomplete, hfinds.buf, Function.update_self,
        hhead, hfinds.buf]

theorem Finished.step (h : Finished buf₀ bufs pre as s) (hnd : bufs.Nodup) {a : DiskEvent}
    (hstep : DiskStep ideLock s a s') : Finished buf₀ bufs pre (as ++ [a]) s' := by
  cases a with
  | irq c =>
    obtain ⟨hfinds, fuel, hret⟩ := hstep
    by_cases hq : s.queue = 0
    · obtain ⟨hqueue, hbuf, hdevice⟩ := (ideHandler_ok hret).1 hq
      refine h.unchanged (fun c' hc' => ?_) hqueue hbuf (by rw [hdevice])
      cases hc'
      rw [hfinds.buf, hq]
    · exact h.irq hnd hq hfinds hret
  | other =>
    obtain ⟨hqueue, hbuf, hsent⟩ := hstep
    exact h.unchanged (fun c hc => nomatch hc) hqueue hbuf hsent

/-- **Valid buffers and failed reads.** After any disk interrupts on a queue whose first command has
been sent, whatever the device answered: the reads that the interrupts completed have left valid
buffers only where the block was transferred without an error if and only if no read of the run
ended in a device error. The same holds at the moment the next interrupt has set the flags, whether
or not it goes on to return, and the command that it completes is that of its buffer. -/
theorem read_valid_iff {s₀ : State K}
    (hqueue : Chain (fun b => (s₀.buf b).qnext) 0 s₀.queue bufs)
    (hsent : s₀.device.sent = pre ++ (bufs.take 1).flatMap fun b => request (s₀.buf b))
    (hrun : Run (DiskStep ideLock) s₀ as s) :
    ((∀ c, ReadIn s₀.buf as c → ValidIfRead (s.buf c.buf) c) ↔
      ∀ c, ReadIn s₀.buf as c → ¬DeviceError c.status) ∧
    (∀ c fuel s₁, s.queue ≠ 0 → (s.buf s.queue).Reading → Finds s c →
      ideComplete ideLock fuel s = .ok s₁ →
      (ValidIfRead (s₁.buf s.queue) c ↔ ¬DeviceError c.status)) ∧
    (s.queue ≠ 0 → ∃ sent, s.device.sent = sent ++ request (s.buf s.queue)) := by
  have hnd := hqueue.nodup
  have h : Finished s₀.buf bufs pre as s := by
    refine hrun.invariant ⟨⟨0, ⟨hqueue, fun _ _ => rfl, hsent⟩, ?_⟩, ?_⟩ ?_
    · exact fun c hc => absurd hc List.not_mem_nil
    · exact fun c hc => absurd hc.mem List.not_mem_nil
    · exact fun as a t t' ht hstep => ht.step hnd hstep
  obtain ⟨k, hprogress, -⟩ := h.progress
  refine ⟨forall₂_congr fun c hc => ?_, fun c fuel s₁ hq hreading hfinds hcomplete => ?_,
    hprogress.head_sent hnd⟩
  · rw [h.finish c hc]
    exact validIfRead_finish_iff hc.reading
  · rw [ideComplete_finds hfinds hq hreading hcomplete, Function.update_self]
    exact validIfRead_finish_iff hreading

/-- The interrupt of the last read in the queue, where the handler can run. -/
theorem Ready.last_read (h : Ready ideLock s) (hq : s.queue ≠ 0) (hlast : (s.buf s.queue).qnext = 0)
    (hreading : (s.buf s.queue).Reading) (hfinds : Finds s c) :
    ∃ s', Run (DiskStep ideLock) s [.irq c] s' ∧
      s'.buf s.queue = (s.buf s.queue).finish c.words c.status := by
  obtain ⟨s', ⟨fuel, hret⟩, -⟩ := ideHandler_completes h hq
    (fun heq => hq (heq.symm.trans hlast)) (fun hne => absurd hlast hne)
  have hret' := hret fuel (le_refl fuel)
  obtain ⟨s₁, hcomplete, -, hbuf, -⟩ := (ideHandler_ok hret').2 hq
  refine ⟨s', .single ⟨hfinds, fuel, hret'⟩, ?_⟩
  rw [hbuf, ideComplete_finds hfinds hq hreading hcomplete, Function.update_self]

end Runs

/-- A read has been sent to the device, which has ones to offer and ends every wait with `r`. -/
def oneRead (r : BitVec 8) : State Unit where
  kernel := bootKernel
  queue := 0x100
  buf _ := ⟨0, 1, 7, 0, fun _ => 0⟩
  device := ⟨fun _ => r, fun _ => 1, 0, 0, 0, 0, 0, 0, [.command ⟨1, 7, true, ideCmdRead⟩]⟩

theorem ready_oneRead {r : BitVec 8} (hr : IsReady r) : Ready () (oneRead r) where
  spin := Quiet.inv boot_bootKernel.cpu
  room := show bootKernel.cpu.ncli + 2 < intMax by decide
  ide := rfl
  ptable := rfl
  device n := ⟨n, le_refl n, hr⟩

theorem finds_oneRead {r : BitVec 8} (hr : IsReady r) :
    Finds (oneRead r) ⟨0x100, fun _ => 1, r⟩ where
  buf := rfl
  words := rfl
  status _ _ := ⟨0, fun _ hm => absurd hm (Nat.not_lt_zero _), hr, rfl⟩

/-- Without an error the block is there. -/
theorem read_valid_iff_one : ∃ s, Run (DiskStep ()) (oneRead ideDrdy)
      [.irq ⟨0x100, fun _ => 1, ideDrdy⟩] s ∧
    ((∀ c, ReadIn (oneRead ideDrdy).buf [.irq ⟨0x100, fun _ => 1, ideDrdy⟩] c →
      ValidIfRead (s.buf c.buf) c) ↔
      ∀ c, ReadIn (oneRead ideDrdy).buf [.irq ⟨0x100, fun _ => 1, ideDrdy⟩] c →
        ¬DeviceError c.status) := by
  have hready : IsReady ideDrdy := by decide
  obtain ⟨s, hrun, -⟩ := (ready_oneRead hready).last_read (by decide) rfl rfl (finds_oneRead hready)
  have hqueue : Chain (fun b => ((oneRead ideDrdy).buf b).qnext) 0 (oneRead ideDrdy).queue [0x100] :=
    ⟨rfl, by decide, rfl⟩
  have hsent : (oneRead ideDrdy).device.sent =
      [] ++ ([(0x100 : Word)].take 1).flatMap fun b => request ((oneRead ideDrdy).buf b) := by
    decide
  exact ⟨s, hrun, (read_valid_iff hqueue hsent hrun).1⟩

/-- The device answers `IDE_DRDY | IDE_ERR`: the buffer is valid, and the block is not there. -/
theorem failed_read_valid : ∃ s, Run (DiskStep ()) (oneRead (ideDrdy ||| ideErr))
      [.irq ⟨0x100, fun _ => 1, ideDrdy ||| ideErr⟩] s ∧
    DeviceError (ideDrdy ||| ideErr) ∧ (s.buf 0x100).Valid ∧ (s.buf 0x100).data ≠ fun _ => 1 := by
  have hready : IsReady (ideDrdy ||| ideErr) := by decide
  obtain ⟨s, hrun, hbuf⟩ := (ready_oneRead hready).last_read (by decide) rfl rfl (finds_oneRead hready)
  have herr : DeviceError (ideDrdy ||| ideErr) := by decide
  have hdata : (s.buf 0x100).data = fun _ => 0 := by
    rw [show s.buf 0x100 = _ from hbuf]
    exact Buf.finish_data_of_error herr
  refine ⟨s, hrun, herr, ?_, fun hones => ?_⟩
  · rw [show s.buf 0x100 = _ from hbuf]
    exact Buf.finish_valid _ _ _
  · have hzero : (0 : Word) = 1 := congrFun (hdata.symm.trans hones) ⟨0, by decide⟩
    exact absurd hzero (by decide)

end Ide

end TuixOS
