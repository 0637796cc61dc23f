import TuixOS.InterruptEntry
import TuixOS.Lib.Run
import Mathlib.Tactic.FinCases

/-!
# Runs of interrupts

From `init_pic` on devices raise their lines, the kernel masks and unmasks lines, keys are typed, and the CPU is
given vectors, each with its handler from the entry to the `iret`. The handlers of the timer, the keyboard and
the first disk send an end of interrupt, the others send none: a level that one of these came through is in service
for good, and everything behind it is cut off (`irq_in_service`). The keyboard is never cut off, and loses
no code, unless one was waiting when the requests were cleared (`keyboard_run`).
-/

namespace TuixOS

open Lib

namespace Interrupts

/-! ## The machine -/

inductive Act
  /-- A device other than the keyboard. -/
  | raise (i : Line)
  /-- The keyboard has a code. -/
  | key (code : Byte)
  | call (c : IrqCall)
  /-- The CPU is given a vector, and runs its handler. -/
  | interrupt (v : Byte)
  deriving DecidableEq

namespace Devices

/-- The line rises with the first code that waits. -/
def key (code : Byte) (d : Devices) : Devices :=
  match d.keys with
  | [] => { d with keys := [code] }.raise irqKeyboard
  | first :: codes => { d with keys := first :: codes ++ [code] }

def call (c : IrqCall) (d : Devices) : Devices :=
  { d with irqs := { d.irqs with pics := c.exec d.irqs.pics } }

def initPic (d : Devices) : Devices := { d with irqs := d.irqs.initPic }

end Devices

variable (tables : Idt.Tables) (sys : TrapFrame → Devices → Outcome)

def Step (d : Devices) (a : Act) (d' : Devices) : Prop :=
  match a with
  | .raise i => i ≠ irqKeyboard ∧ i ≠ irqCascade ∧ d' = d.raise i
  | .key code => d' = d.key code
  | .call c => d' = d.call c
  | .interrupt v => ∃ irqs f f', d.irqs.ack = some (v, irqs) ∧ f.intNo = v.setWidth 32 ∧
      isrHandler tables sys f { d with irqs := irqs } = .ok (.ok (f', d'))

/-- The vectors whose handlers send an end of interrupt. -/
def Acked (v : Byte) : Prop := v = 32 ∨ v = 33 ∨ v = 46

instance decidableAcked (v : Byte) : Decidable (Acked v) := inferInstanceAs (Decidable (_ ∨ _ ∨ _))

/-! ## One interrupt -/

/-- What the handler of a line does to the devices. -/
def irqEffect (v : Byte) (d : Devices) : Devices :=
  if v = 32 then { d with timerTicks := d.timerTicks + 1 }.sendEoi 32
  else if v = 33 then (reportKey d.inb60.1 d.inb60.2).sendEoi 33
  else if v = 46 then (d.serialPrintf "主磁盘中断触发!" []).sendEoi 46
  else d

/-- The tables of `init_idt`. -/
def Registered (tables : Idt.Tables) : Prop :=
  ∃ addr idtAddr idtr, tables = Idt.initIdt addr idtAddr (Idt.bss idtr)

variable {tables sys} {d d' : Devices} {as : List Act} {v : Byte}

theorem isr_irq {x : Byte × Idt.Isr} (hx : x ∈ Idt.idtListPic) {f : TrapFrame} (d : Devices)
    (hno : f.intNo = x.1.setWidth 32) : isr sys x.2 f d = .ok (f, irqEffect x.1 d) := by
  fin_cases hx
  all_goals
    first
    | rfl
    | simp only [isr, timerHandler, keyboardHandler, hno]
      rfl

/-- The vectors of the lines. -/
theorem irq_named (h32 : 32 ≤ v.toNat) (h48 : v.toNat < 48) : ∃ name, (v, name) ∈ Idt.idtListPic := by
  have hkeys : Idt.idtListPic.map Prod.fst = (List.range' 32 16).map (BitVec.ofNat 8) := rfl
  have hmem : v ∈ Idt.idtListPic.map Prod.fst := by
    rw [hkeys, Idt.mem_map_ofNat, List.mem_range'_1]
    · omega
    · intro n hn
      rw [List.mem_range'_1] at hn
      omega
  obtain ⟨x, hx, rfl⟩ := List.mem_map.mp hmem
  exact ⟨x.2, hx⟩

theorem isrHandler_irq (ht : Registered tables) (h32 : 32 ≤ v.toNat) (h48 : v.toNat < 48) {f : TrapFrame}
    (hno : f.intNo = v.setWidth 32) (d : Devices) :
    isrHandler tables sys f d = .ok (.ok (f, irqEffect v d)) := by
  obtain ⟨addr, idtAddr, idtr, rfl⟩ := ht
  obtain ⟨name, hname⟩ := irq_named h32 h48
  rw [isrHandler_vector rfl sys hno]
  have hlookup : ∀ x ∈ Idt.idtListPic, Idt.namedVectors.lookup x.1 = some x.2 := by decide +kernel
  simp only [hlookup _ hname]
  rw [isr_irq hname d hno]

/-- An interrupt of a line: its level is the next one, and its handler has run on what the acknowledgement
left. -/
structure Taken (d : Devices) (v : Byte) (d' : Devices) : Prop where
  vector : 32 ≤ v.toNat ∧ v.toNat < 48
  next : d.irqs.next1 = some (Controllers.masterLevel v)
  handled : ∃ irqs : Controllers, irqs.pics = d.irqs.pics ∧
    irqs.lines1 = d.irqs.lines1.ack (Controllers.masterLevel v) ∧ d' = irqEffect v { d with irqs := irqs }

theorem taken_of_step (ht : Registered tables) (hp : d.irqs.pics.Programmed)
    (h : Step tables sys d (.interrupt v) d') : Taken d v d' := by
  obtain ⟨irqs, f, f', hack, hno, hisr⟩ := h
  obtain ⟨hnext, hpics, hlines, hvector⟩ := Controllers.ack_cases hp hack
  have hrange : 32 ≤ v.toNat ∧ v.toNat < 48 := by
    rcases hvector with ⟨hlt, hv, -⟩ | ⟨j, -, hv, -⟩
    · omega
    · omega
  rw [isrHandler_irq ht hrange.1 hrange.2 hno] at hisr
  cases hisr
  exact ⟨hrange, hnext, irqs, hpics, hlines, rfl⟩

/-! ### What a handler does -/

theorem sendEoi_eq {n : Word} (h : 8 ≤ n.setWidth 8) (d : Devices) : d.sendEoi n =
    { d with irqs := { d.irqs with lines1 := d.irqs.lines1.eoi, lines2 := d.irqs.lines2.eoi } } := by
  rw [Devices.sendEoi, Controllers.sendEoi_eq h]

theorem raise_keyboard (d : Devices) : d.raise irqKeyboard =
    { d with irqs := { d.irqs with lines1 := d.irqs.lines1.request 1 } } := rfl

/-- What reading the keyboard leaves: the line rises again if another code waits. -/
theorem inb60_irqs (d : Devices) : d.inb60.2.irqs =
    if 2 ≤ d.keys.length then { d.irqs with lines1 := d.irqs.lines1.request 1 } else d.irqs := by
  unfold Devices.inb60
  rcases d.keys with _ | ⟨code, _ | ⟨next, codes⟩⟩
  · rfl
  · rfl
  · rfl

/-- What is written for a code. -/
def keyText (code : Byte) : List Output :=
  if code < 0x80 then
    if scancodeToChar code ≠ 0 then
      [.serial "按键按下:[%c] 扫描码:%x\n" [(scancodeToChar code).signExtend 32, code.setWidth 32]]
    else [.serial "特殊键按下，扫描码:%x\n" [code.setWidth 32]]
  else []

theorem reportKey_eq (code : Byte) (d : Devices) :
    reportKey code d = { d with log := d.log ++ keyText code } := by
  unfold reportKey keyText
  by_cases hpressed : code < 0x80
  · simp only [if_pos hpressed]
    split_ifs
    · rfl
    · rfl
  · simp only [if_neg hpressed, List.append_nil]

theorem irqEffect_timer (d : Devices) :
    irqEffect 32 d = { d with timerTicks := d.timerTicks + 1 }.sendEoi 32 := rfl

theorem irqEffect_keyboard (d : Devices) :
    irqEffect 33 d = (reportKey d.inb60.1 d.inb60.2).sendEoi 33 := rfl

theorem irqEffect_ata1 (d : Devices) :
    irqEffect 46 d = (d.serialPrintf "主磁盘中断触发!" []).sendEoi 46 := rfl

theorem irqEffect_of_not_acked (hv : ¬Acked v) (d : Devices) : irqEffect v d = d := by
  simp only [Acked, not_or] at hv
  rw [irqEffect, if_neg hv.1, if_neg hv.2.1, if_neg hv.2.2]

theorem irqEffect_pics (v : Byte) (d : Devices) : (irqEffect v d).irqs.pics = d.irqs.pics := by
  by_cases hv : Acked v
  · rcases hv with rfl | rfl | rfl
    · rw [irqEffect_timer, sendEoi_eq (by decide)]
    · rw [irqEffect_keyboard, sendEoi_eq (by decide), reportKey_eq]
      simp only [inb60_irqs]
      split_ifs
      · rfl
      · rfl
    · rw [irqEffect_ata1, sendEoi_eq (by decide)]
      rfl
  · rw [irqEffect_of_not_acked hv]

/-- The handlers of the acknowledged vectors take their own level out of service. -/
theorem irqEffect_inService {a : Arbiter 8} {i : Level} (hd : d.irqs.lines1.inService = insert i a.inService)
    (hfree : ∀ j ≤ i, j ∉ a.inService) : (irqEffect v d).irqs.lines1.inService =
      if Acked v then a.inService else insert i a.inService := by
  by_cases hv : Acked v
  · rw [if_pos hv]
    rcases hv with rfl | rfl | rfl
    · rw [irqEffect_timer, sendEoi_eq (by decide)]
      exact Arbiter.eoi_inService hd hfree
    · rw [irqEffect_keyboard, sendEoi_eq (by decide), reportKey_eq]
      refine Arbiter.eoi_inService ?_ hfree
      simp only [inb60_irqs]
      split_ifs
      · exact hd
      · exact hd
    · rw [irqEffect_ata1, sendEoi_eq (by decide)]
      exact Arbiter.eoi_inService hd hfree
  · rw [if_neg hv, irqEffect_of_not_acked hv, hd]

theorem irqEffect_timerTicks (v : Byte) (d : Devices) :
    (irqEffect v d).timerTicks = if v = 32 then d.timerTicks + 1 else d.timerTicks := by
  by_cases hv : Acked v
  · rcases hv with rfl | rfl | rfl
    · rfl
    · rw [irqEffect_keyboard, sendEoi_eq (by decide), reportKey_eq]
      unfold Devices.inb60
      rcases d.keys with _ | ⟨code, _ | ⟨next, codes⟩⟩
      · rfl
      · rfl
      · rfl
    · rfl
  · have h32 : v ≠ 32 := fun h => hv (Or.inl h)
    rw [irqEffect_of_not_acked hv, if_neg h32]

/-! ## Levels that stay in service -/

/-- What a run from `d₀` leaves of the first controller. -/
structure InService (d₀ : Devices) (as : List Act) (d : Devices) : Prop where
  programmed : d.irqs.pics.Programmed
  vectors : ∀ v, .interrupt v ∈ as → 32 ≤ v.toNat ∧ v.toNat < 48
  levels : ∀ i, i ∈ d.irqs.lines1.inService ↔
    ∃ v, .interrupt v ∈ as ∧ Controllers.masterLevel v = i ∧ ¬Acked v
  once : ∀ v, ¬Acked v → as.count (.interrupt v) ≤ 1
  ticks : d.timerTicks = d₀.timerTicks + BitVec.ofNat 32 (as.count (.interrupt 32))

/-- Nothing is taken at a level in service or behind it. -/
theorem InService.before {d₀ : Devices} (h : InService d₀ as d) (ht : Taken d v d') {u : Byte}
    (hu : .interrupt u ∈ as) (hack : ¬Acked u) :
    Controllers.masterLevel v < Controllers.masterLevel u := by
  by_contra hle
  obtain ⟨-, hfree⟩ := Controllers.next1_ready ht.next
  exact hfree _ (not_lt.mp hle) ((h.levels _).mpr ⟨u, hu, rfl, hack⟩)

theorem inService_other {d₀ : Devices} (h : InService d₀ as d) {a : Act} (ha : ∀ v, a ≠ .interrupt v)
    (hp : d'.irqs.pics.Programmed) (hlines : d'.irqs.lines1.inService = d.irqs.lines1.inService)
    (hticks : d'.timerTicks = d.timerTicks) : InService d₀ (as ++ [a]) d' := by
  have hmem : ∀ v, .interrupt v ∈ as ++ [a] ↔ .interrupt v ∈ as := by
    intro v
    rw [List.mem_append, List.mem_singleton, or_iff_left]
    exact fun heq => ha v heq.symm
  have hcount : ∀ v, (as ++ [a]).count (.interrupt v) = as.count (.interrupt v) := by
    intro v
    rw [List.count_append, List.count_singleton, if_neg (by simpa using ha v), Nat.add_zero]
  refine ⟨hp, fun v hv => h.vectors v ((hmem v).mp hv), fun i => ?_, fun v hv => ?_, ?_⟩
  · rw [hlines, h.levels]
    simp only [hmem]
  · rw [hcount]
    exact h.once v hv
  · rw [hticks, hcount]
    exact h.ticks

theorem inService_interrupt {d₀ : Devices} (h : InService d₀ as d) (ht : Taken d v d') :
    InService d₀ (as ++ [.interrupt v]) d' := by
  obtain ⟨irqs, hpics, hlines, rfl⟩ := ht.handled
  obtain ⟨-, hfree⟩ := Controllers.next1_ready ht.next
  have hservice : ({ d with irqs := irqs } : Devices).irqs.lines1.inService =
      insert (Controllers.masterLevel v) d.irqs.lines1.inService := by
    show irqs.lines1.inService = _
    rw [hlines]
    rfl
  have hmem : ∀ u, .interrupt u ∈ as ++ [.interrupt v] ↔ .interrupt u ∈ as ∨ u = v := by
    simp
  refine ⟨?programmed, fun u hu => ?vectors, fun i => ?levels, fun u hu => ?once, ?ticks⟩
  case programmed =>
    rw [irqEffect_pics]
    show irqs.pics.Programmed
    rw [hpics]
    exact h.programmed
  case vectors =>
    rcases (hmem u).mp hu with hu | rfl
    · exact h.vectors u hu
    · exact ht.vector
  case levels =>
    rw [irqEffect_inService hservice hfree]
    by_cases hv : Acked v
    · rw [if_pos hv, h.levels]
      constructor
      · rintro ⟨u, hu, hi, hack⟩
        exact ⟨u, (hmem u).mpr (.inl hu), hi, hack⟩
      · rintro ⟨u, hu, hi, hack⟩
        rcases (hmem u).mp hu with hu | rfl
        · exact ⟨u, hu, hi, hack⟩
        · exact absurd hv hack
    · rw [if_neg hv, Finset.mem_insert, h.levels]
      constructor
      · rintro (rfl | ⟨u, hu, hi, hack⟩)
        · exact ⟨v, (hmem v).mpr (.inr rfl), rfl, hv⟩
        · exact ⟨u, (hmem u).mpr (.inl hu), hi, hack⟩
      · rintro ⟨u, hu, rfl, hack⟩
        rcases (hmem u).mp hu with hu | rfl
        · exact Or.inr ⟨u, hu, rfl, hack⟩
        · exact Or.inl rfl
  case once =>
    rw [List.count_append, List.count_singleton]
    split_ifs with heq
    · cases beq_iff_eq.mp heq
      have hnot : .interrupt v ∉ as := fun hmem' => lt_irrefl _ (h.before ht hmem' hu)
      rw [List.count_eq_zero.mpr hnot]
    · exact h.once u hu
  case ticks =>
    rw [irqEffect_timerTicks, List.count_append, List.count_singleton]
    by_cases h32 : v = 32
    · rw [if_pos h32, h32, if_pos (beq_self_eq_true _), BitVec.ofNat_add, ← BitVec.add_assoc]
      exact congrArg (· + 1) h.ticks
    · have hne : (Act.interrupt v == .interrupt 32) = false := by
        rw [beq_eq_false_iff_ne]
        intro heq
        exact h32 (Act.interrupt.inj heq)
      rw [if_neg h32, hne]
      exact h.ticks

theorem inService_step {d₀ : Devices} (hr : Registered tables) (h : InService d₀ as d) {a : Act}
    (hstep : Step tables sys d a d') : InService d₀ (as ++ [a]) d' := by
  cases a with
  | raise i =>
    obtain ⟨-, -, rfl⟩ := hstep
    refine inService_other h (by simp) ?_ ?_ rfl
    all_goals
      simp only [Devices.raise, Controllers.raise]
      split_ifs
    · exact h.programmed
    · exact h.programmed
    · rfl
    · rfl
  | key code =>
    obtain rfl : d' = d.key code := hstep
    unfold Devices.key
    cases d.keys with
    | nil => exact inService_other h (by simp) h.programmed rfl rfl
    | cons first codes => exact inService_other h (by simp) h.programmed rfl rfl
  | call c =>
    obtain rfl : d' = d.call c := hstep
    exact inService_other h (by simp) (exec_programmed h.programmed c) rfl rfl
  | interrupt v => exact inService_interrupt h (taken_of_step hr h.programmed hstep)

theorem inService_initPic (d : Devices) : InService d [] d.initPic := by
  refine ⟨initPic_programmed d.irqs.pics, by simp, fun i => ?_, by simp, ?_⟩
  · rw [Devices.initPic, Controllers.initPic_eq]
    simp
  · exact (BitVec.add_zero _).symm

theorem inService_run (hr : Registered tables) (d : Devices) (hrun : Run (Step tables sys) d.initPic as d') :
    InService d as d' :=
  hrun.invariant (inService_initPic d) fun _ _ _ _ h => inService_step hr h

/-- **Interrupts without an end.** In every run from `init_pic` on, exactly the levels are in service through
which a vector came whose handler sends no end of interrupt. Only levels before all of these are given to the
CPU again, so each of these vectors comes once at most. -/
theorem irq_in_service (addr : Idt.Stub → Word) (idtAddr : Word) (idtr : Idt.IdtPtr)
    (sys : TrapFrame → Devices → Outcome) (d : Devices) {as : List Act} {d' : Devices}
    (hrun : Run (Step (Idt.initIdt addr idtAddr (Idt.bss idtr)) sys) d.initPic as d') :
    (∀ i, i ∈ d'.irqs.lines1.inService ↔
      ∃ v, .interrupt v ∈ as ∧ Controllers.masterLevel v = i ∧ ¬Acked v) ∧
    (∀ v d'', Step (Idt.initIdt addr idtAddr (Idt.bss idtr)) sys d' (.interrupt v) d'' →
      ∀ u, .interrupt u ∈ as → ¬Acked u → Controllers.masterLevel v < Controllers.masterLevel u) ∧
    (∀ v, ¬Acked v → as.count (.interrupt v) ≤ 1) ∧
    d'.timerTicks = d.timerTicks + BitVec.ofNat 32 (as.count (.interrupt 32)) := by
  have hr : Registered (Idt.initIdt addr idtAddr (Idt.bss idtr)) := ⟨addr, idtAddr, idtr, rfl⟩
  have h := inService_run hr d hrun
  exact ⟨h.levels, fun v d'' hstep u => h.before (taken_of_step hr h.programmed hstep), h.once, h.ticks⟩

/-- The devices when the machine is switched on. -/
def resetDevices : Devices := ⟨⟨resetPics, ⟨∅, ∅⟩, ⟨∅, ∅⟩⟩, 0, [], 0, 0, 0, []⟩

/-- One interrupt of the serial line, whose handler sends no end of interrupt. -/
theorem irq_in_service_com1 :
    let tables := Idt.initIdt (fun _ => 0) 0 (Idt.bss ⟨0, 0⟩)
    let sys : TrapFrame → Devices → Outcome := fun f d => .ok (f, d)
    ∃ d', Run (Step tables sys) resetDevices.initPic [.call (.enable 4), .raise 4, .interrupt 36] d' ∧
      4 ∈ d'.irqs.lines1.inService := by
  intro tables sys
  let d : Devices := (resetDevices.initPic.call (.enable 4)).raise 4
  let irqs : Controllers := { d.irqs with lines1 := d.irqs.lines1.ack 4 }
  have hack : d.irqs.ack = some (36, irqs) := by decide
  let f : TrapFrame := { callFrame 0 X86.kernelCode.toX86 with intNo := (36 : Byte).setWidth 32 }
  have hisr : isrHandler tables sys f { d with irqs := irqs } =
      .ok (.ok (f, irqEffect 36 { d with irqs := irqs })) :=
    isrHandler_irq ⟨_, _, _, rfl⟩ (by decide) (by decide) rfl _
  have hint : Step tables sys d (.interrupt 36) (irqEffect 36 { d with irqs := irqs }) :=
    ⟨irqs, f, f, hack, rfl, hisr⟩
  have hraise : Step tables sys (resetDevices.initPic.call (.enable 4)) (.raise 4) d :=
    ⟨by decide, by decide, rfl⟩
  have hcall : Step tables sys resetDevices.initPic (.call (.enable 4))
      (resetDevices.initPic.call (.enable 4)) := rfl
  have hrun := Run.cons hcall (Run.cons hraise (Run.single hint))
  refine ⟨_, hrun, ?_⟩
  have hlevels := (irq_in_service (fun _ => 0) 0 ⟨0, 0⟩ sys resetDevices hrun).1
  exact (hlevels 4).mpr ⟨36, by simp, by decide, by decide⟩

/-! ## The keyboard -/

/-- The codes of the keys that were typed. -/
def typed (as : List Act) : List Byte :=
  as.filterMap fun a => match a with
    | .key code => some code
    | _ => none

/-- What was written, without the text of the first disk. -/
def keyOutput (log : List Output) : List Output := log.filter (· ≠ .serial "主磁盘中断触发!" [])

theorem keyOutput_keyText (code : Byte) : keyOutput (keyText code) = keyText code := by
  rw [keyOutput, List.filter_eq_self]
  intro o ho
  unfold keyText at ho
  split_ifs at ho
  · rw [List.mem_singleton] at ho
    subst ho
    rfl
  · rw [List.mem_singleton] at ho
    subst ho
    rfl
  · simp at ho

theorem inb60_cons {code : Byte} {codes : List Byte} (h : d.keys = code :: codes) :
    d.inb60.1 = code ∧ d.inb60.2.keys = codes ∧ d.inb60.2.log = d.log := by
  unfold Devices.inb60
  rw [h]
  rcases codes with _ | ⟨next, codes⟩
  · exact ⟨rfl, rfl, rfl⟩
  · exact ⟨rfl, rfl, rfl⟩

/-- What the keyboard's handler does with a code that waits. -/
theorem irqEffect_code {code : Byte} {codes : List Byte} (h : d.keys = code :: codes) :
    (irqEffect 33 d).keys = codes ∧ keyOutput (irqEffect 33 d).log = keyOutput d.log ++ keyText code ∧
      ((1 : Level) ∈ (irqEffect 33 d).irqs.lines1.requests ↔
        1 ∈ d.irqs.lines1.requests ∨ codes ≠ []) := by
  obtain ⟨hcode, hkeys, hlog⟩ := inb60_cons h
  rw [irqEffect_keyboard, sendEoi_eq (by decide), reportKey_eq]
  refine ⟨hkeys, ?_, ?_⟩
  · simp only [hlog, hcode, keyOutput, List.filter_append]
    exact congrArg _ (keyOutput_keyText code)
  · simp only [Arbiter.eoi_requests, inb60_irqs, h, List.length_cons]
    rcases codes with _ | ⟨next, codes⟩
    · simp
    · simp [Arbiter.request]

/-- The other handlers leave the keyboard. -/
theorem irqEffect_of_ne (hv : v ≠ 33) (d : Devices) :
    (irqEffect v d).keys = d.keys ∧ keyOutput (irqEffect v d).log = keyOutput d.log ∧
      (irqEffect v d).irqs.lines1.requests = d.irqs.lines1.requests := by
  by_cases hack : Acked v
  · rcases hack with rfl | rfl | rfl
    · rw [irqEffect_timer, sendEoi_eq (by decide)]
      exact ⟨rfl, rfl, Arbiter.eoi_requests _⟩
    · exact absurd rfl hv
    · rw [irqEffect_ata1, sendEoi_eq (by decide)]
      refine ⟨rfl, ?_, Arbiter.eoi_requests _⟩
      simp [Devices.serialPrintf, keyOutput]
  · rw [irqEffect_of_not_acked hack]
    exact ⟨rfl, rfl, rfl⟩

/-- The first two levels of the first controller have their own vectors. -/
theorem masterLevel_le_one (h : 32 ≤ v.toNat ∧ v.toNat < 48) (hle : Controllers.masterLevel v ≤ 1) :
    v.toNat = 32 + (Controllers.masterLevel v).val := by
  unfold Controllers.masterLevel at hle ⊢
  by_cases h40 : v.toNat < 0x28
  · simp only [if_pos h40]
    omega
  · rw [if_neg h40] at hle
    exact absurd hle (by decide)

theorem eq_of_masterLevel_one (h : 32 ≤ v.toNat ∧ v.toNat < 48) (hlevel : Controllers.masterLevel v = 1) :
    v = 33 := by
  have hv := masterLevel_le_one h (by rw [hlevel])
  rw [hlevel] at hv
  exact BitVec.eq_of_toNat_eq hv

/-- The level of a vector that is taken requests. -/
theorem Taken.requested (ht : Taken d v d') (hlevel : Controllers.masterLevel v = 1) :
    (1 : Level) ∈ d.irqs.lines1.requests := by
  obtain ⟨⟨hmem, -, -⟩, -⟩ := Arbiter.next_eq_some_iff.mp ht.next
  rw [hlevel] at hmem
  unfold Controllers.wired at hmem
  split_ifs at hmem
  · exact (Finset.mem_insert.mp hmem).resolve_left (by decide)
  · exact hmem

/-- Before the first key is read: the typed codes are those that were read and those that wait, and the line
requests exactly if one waits. -/
structure Keyed (d₀ : Devices) (as : List Act) (d : Devices) : Prop where
  requested : (1 : Level) ∈ d.irqs.lines1.requests ↔ d.keys ≠ []
  order : ∃ read, typed as = read ++ d.keys ∧ read.length = as.count (.interrupt 33) ∧
    keyOutput d.log = keyOutput d₀.log ++ read.flatMap keyText

theorem keyed_other {d₀ : Devices} (h : Keyed d₀ as d) {a : Act} (ha : typed [a] = [])
    (h33 : a ≠ .interrupt 33) (hkeys : d'.keys = d.keys) (hlog : keyOutput d'.log = keyOutput d.log)
    (hreq : (1 : Level) ∈ d'.irqs.lines1.requests ↔ 1 ∈ d.irqs.lines1.requests) :
    Keyed d₀ (as ++ [a]) d' := by
  obtain ⟨read, htyped, hlen, hout⟩ := h.order
  refine ⟨by rw [hreq, hkeys, h.requested], read, ?_, ?_, hlog.trans hout⟩
  · rw [typed, List.filterMap_append, hkeys]
    exact (congrArg₂ _ htyped ha).trans (List.append_nil _)
  · rw [List.count_append, List.count_singleton, if_neg (by simpa using h33), Nat.add_zero]
    exact hlen

theorem keyed_key {d₀ : Devices} (h : Keyed d₀ as d) (code : Byte) :
    Keyed d₀ (as ++ [.key code]) (d.key code) := by
  obtain ⟨read, htyped, hlen, hout⟩ := h.order
  have hcount : (as ++ [Act.key code]).count (.interrupt 33) = as.count (.interrupt 33) := by
    rw [List.count_append, List.count_singleton]
    rfl
  have hkeys : (d.key code).keys = d.keys ++ [code] ∧ (d.key code).log = d.log := by
    unfold Devices.key
    cases hd : d.keys with
    | nil => exact ⟨rfl, rfl⟩
    | cons first codes => exact ⟨rfl, rfl⟩
  refine ⟨?_, read, ?_, hlen.trans hcount.symm, hkeys.2 ▸ hout⟩
  · rw [hkeys.1]
    unfold Devices.key
    cases hd : d.keys with
    | nil => simp [raise_keyboard, Arbiter.request]
    | cons first codes =>
      have hreq : (1 : Level) ∈ d.irqs.lines1.requests := h.requested.mpr (by simp [hd])
      simp [hreq]
  · rw [typed, List.filterMap_append, hkeys.1, ← List.append_assoc]
    exact congrArg (· ++ [code]) htyped

theorem keyed_interrupt {d₀ : Devices} (h : Keyed d₀ as d) (ht : Taken d v d') :
    Keyed d₀ (as ++ [.interrupt v]) d' := by
  obtain ⟨irqs, -, hlines, rfl⟩ := ht.handled
  have hreq : irqs.lines1.requests = d.irqs.lines1.requests.erase (Controllers.masterLevel v) := by
    rw [hlines]
    rfl
  by_cases h33 : v = 33
  · subst h33
    -- the level requests, so a code waits
    have hwaits : d.keys ≠ [] := h.requested.mp (ht.requested rfl)
    obtain ⟨code, codes, hd⟩ := List.exists_cons_of_ne_nil hwaits
    obtain ⟨hkeys, hlog, hrequests⟩ := irqEffect_code (d := { d with irqs := irqs }) hd
    obtain ⟨read, htyped, hlen, hout⟩ := h.order
    refine ⟨?_, read ++ [code], ?_, ?_, ?_⟩
    · have hnot : (1 : Level) ∉ irqs.lines1.requests := by
        rw [hreq]
        exact Finset.notMem_erase _ _
      rw [hrequests, hkeys]
      exact or_iff_right hnot
    · rw [typed, List.filterMap_append, hkeys, List.append_assoc]
      have htyped' : typed as = read ++ ([code] ++ codes) := by
        rw [htyped, hd]
        rfl
      exact (List.append_nil _).trans htyped'
    · rw [List.length_append, hlen, List.count_append, List.count_singleton]
      rfl
    · rw [hlog, List.flatMap_append, ← List.append_assoc]
      exact congrArg₂ _ hout (List.append_nil _).symm
  · obtain ⟨hkeys, hlog, hrequests⟩ := irqEffect_of_ne h33 { d with irqs := irqs }
    have hne : (1 : Level) ≠ Controllers.masterLevel v :=
      fun hlevel => h33 (eq_of_masterLevel_one ht.vector hlevel.symm)
    refine keyed_other h rfl (by simpa using h33) hkeys hlog ?_
    rw [hrequests]
    show (1 : Level) ∈ irqs.lines1.requests ↔ _
    rw [hreq, Finset.mem_erase]
    exact and_iff_right hne

theorem raise_requests {i : Line} (hi : i ≠ irqKeyboard) :
    (1 : Level) ∈ (d.raise i).irqs.lines1.requests ↔ 1 ∈ d.irqs.lines1.requests := by
  simp only [Devices.raise, Controllers.raise]
  split_ifs with hlt
  · have hne : (1 : Level) ≠ ⟨i.val, hlt⟩ := by
      intro heq
      exact hi (Fin.ext (congrArg Fin.val heq).symm)
    exact Finset.mem_insert.trans (or_iff_right hne)
  · exact Iff.rfl

theorem keyed_step {d₀ : Devices} (hr : Registered tables) (hp : d.irqs.pics.Programmed)
    (h : Keyed d₀ as d) {a : Act} (hstep : Step tables sys d a d') : Keyed d₀ (as ++ [a]) d' := by
  cases a with
  | raise i =>
    obtain ⟨hi, -, rfl⟩ := hstep
    exact keyed_other h rfl (by simp) rfl rfl (raise_requests hi)
  | key code =>
    obtain rfl : d' = d.key code := hstep
    exact keyed_key h code
  | call c =>
    obtain rfl : d' = d.call c := hstep
    exact keyed_other h rfl (by simp) rfl rfl Iff.rfl
  | interrupt v => exact keyed_interrupt h (taken_of_step hr hp hstep)

/-- A code waits, and the line does not request: it will not rise again. -/
def Unheard (d : Devices) : Prop := d.keys ≠ [] ∧ Controllers.masterLevel 33 ∉ d.irqs.lines1.requests

theorem unheard_step (hr : Registered tables) (hp : d.irqs.pics.Programmed) (h : Unheard d) {a : Act}
    (hstep : Step tables sys d a d') : Unheard d' ∧ a ≠ .interrupt 33 := by
  obtain ⟨hkeys, hreq⟩ := h
  have hreq : (1 : Level) ∉ d.irqs.lines1.requests := hreq
  cases a with
  | raise i =>
    obtain ⟨hi, -, rfl⟩ := hstep
    exact ⟨⟨hkeys, (raise_requests hi).not.mpr hreq⟩, by simp⟩
  | key code =>
    obtain rfl : d' = d.key code := hstep
    obtain ⟨first, codes, hd⟩ := List.exists_cons_of_ne_nil hkeys
    have hkey : d.key code = { d with keys := first :: codes ++ [code] } := by
      rw [Devices.key, hd]
    rw [hkey]
    exact ⟨⟨by simp, hreq⟩, by simp⟩
  | call c =>
    obtain rfl : d' = d.call c := hstep
    exact ⟨⟨hkeys, hreq⟩, by simp⟩
  | interrupt v =>
    have ht := taken_of_step hr hp hstep
    have h33 : v ≠ 33 := by
      rintro rfl
      exact hreq (ht.requested rfl)
    obtain ⟨irqs, -, hlines, rfl⟩ := ht.handled
    obtain ⟨hkeys', -, hrequests⟩ := irqEffect_of_ne h33 { d with irqs := irqs }
    refine ⟨⟨?_, ?_⟩, by simpa using h33⟩
    · rw [hkeys']
      exact hkeys
    · rw [hrequests]
      show (1 : Level) ∉ irqs.lines1.requests
      rw [hlines]
      exact fun hmem => hreq (Finset.mem_of_mem_erase hmem)

theorem initPic_requests (d : Devices) : (1 : Level) ∉ d.initPic.irqs.lines1.requests := by
  rw [Devices.initPic, Controllers.initPic_eq]
  exact Finset.notMem_empty _

/-- With a request that is not masked, the keyboard is next, unless the timer is. -/
theorem keyboard_next {d₀ : Devices} (h : InService d₀ as d) (hreq : (1 : Level) ∈ d.irqs.lines1.requests)
    (hmask : d.irqs.masked1 1 = false)
    (htimer : (0 : Level) ∈ d.irqs.lines1.requests → d.irqs.masked1 0 = true) :
    ∃ irqs, d.irqs.ack = some (33, irqs) := by
  have hwired : d.irqs.wired.inService = d.irqs.lines1.inService ∧
      ∀ i : Level, i ≤ 1 → (i ∈ d.irqs.wired.requests ↔ i ∈ d.irqs.lines1.requests) := by
    unfold Controllers.wired
    split_ifs
    · refine ⟨rfl, fun i hi => Finset.mem_insert.trans (or_iff_right ?_)⟩
      rintro rfl
      exact absurd hi (by decide)
    · exact ⟨rfl, fun _ _ => Iff.rfl⟩
  have hfree : ∀ j ≤ (1 : Level), j ∉ d.irqs.wired.inService := by
    intro j hj hmem
    rw [hwired.1, h.levels] at hmem
    obtain ⟨v, hv, rfl, hack⟩ := hmem
    have htoNat := masterLevel_le_one (h.vectors v hv) hj
    have hle : (Controllers.masterLevel v).val ≤ 1 := hj
    have hv' : v.toNat = 32 ∨ v.toNat = 33 := by omega
    rcases hv' with h32 | h33
    · exact hack (Or.inl (BitVec.eq_of_toNat_eq h32))
    · exact hack (Or.inr (Or.inl (BitVec.eq_of_toNat_eq h33)))
  have hnext : d.irqs.next1 = some 1 := by
    rw [Controllers.next1, Arbiter.next_eq_some_iff]
    refine ⟨⟨(hwired.2 1 le_rfl).mpr hreq, hmask, hfree⟩, fun j hj hready => ?_⟩
    obtain rfl : j = 0 := Fin.ext (Nat.lt_one_iff.mp hj)
    obtain ⟨hmem, hopen, -⟩ := hready
    rw [htimer ((hwired.2 0 (by decide)).mp hmem)] at hopen
    cases hopen
  have hvector : Controllers.vector d.irqs.pics.pic1.icw2 1 = 33 :=
    (Controllers.vector_programmed h.programmed 1).1
  refine ⟨{ d.irqs with lines1 := d.irqs.lines1.ack 1 }, ?_⟩
  rw [Controllers.ack_first hnext (by decide), hvector]

/-- **No key is lost.** In every run from `init_pic` on, with no code waiting then, the codes are read in the
order in which they were typed, and the serial line has the text of each; while one waits and its line
is not masked, the keyboard is the next to be served, or the timer. If a code was waiting at `init_pic`, no code is
ever read. -/
theorem keyboard_run (addr : Idt.Stub → Word) (idtAddr : Word) (idtr : Idt.IdtPtr)
    (sys : TrapFrame → Devices → Outcome) (d : Devices) {as : List Act} {d' : Devices}
    (hrun : Run (Step (Idt.initIdt addr idtAddr (Idt.bss idtr)) sys) d.initPic as d') :
    (d.keys = [] →
      (∃ read, typed as = read ++ d'.keys ∧ read.length = as.count (.interrupt 33) ∧
        keyOutput d'.log = keyOutput d.log ++ read.flatMap keyText) ∧
      (d'.keys ≠ [] → d'.irqs.masked1 1 = false →
        ((0 : Level) ∈ d'.irqs.lines1.requests → d'.irqs.masked1 0 = true) →
        ∃ irqs, d'.irqs.ack = some (33, irqs))) ∧
    (d.keys ≠ [] → .interrupt 33 ∉ as) := by
  have hr : Registered (Idt.initIdt addr idtAddr (Idt.bss idtr)) := ⟨addr, idtAddr, idtr, rfl⟩
  have hservice := inService_run hr d hrun
  constructor
  · intro hnone
    have hkeyed : Keyed d as d' ∧ InService d as d' := by
      have h0 : Keyed d [] d.initPic :=
        ⟨iff_of_false (initPic_requests d) fun h => h hnone, [], hnone.symm, rfl,
          (List.append_nil _).symm⟩
      have hall := hrun.invariant (I := fun as t => Keyed d as t ∧ InService d as t)
        ⟨h0, inService_initPic d⟩ fun as a t t' h hstep =>
          ⟨keyed_step hr h.2.programmed h.1 hstep, inService_step hr h.2 hstep⟩
      exact hall
    refine ⟨hkeyed.1.order, fun hwaits hmask htimer => ?_⟩
    exact keyboard_next hservice (hkeyed.1.requested.mpr hwaits) hmask htimer
  · intro hwaits
    have hall := hrun.invariant
      (I := fun as t => (Unheard t ∧ .interrupt 33 ∉ as) ∧ InService d as t)
      ⟨⟨⟨hwaits, initPic_requests d⟩, List.not_mem_nil⟩, inService_initPic d⟩ fun as a t t' h hstep => by
        obtain ⟨hun, ha⟩ := unheard_step hr h.2.programmed h.1.1 hstep
        refine ⟨⟨hun, ?_⟩, inService_step hr h.2 hstep⟩
        rw [List.mem_append, List.mem_singleton, not_or]
        exact ⟨h.1.2, ha.symm⟩
    exact hall.1.2

/-- A key with its line enabled. -/
theorem keyboard_run_key :
    let tables := Idt.initIdt (fun _ => 0) 0 (Idt.bss ⟨0, 0⟩)
    let sys : TrapFrame → Devices → Outcome := fun f d => .ok (f, d)
    let d := (resetDevices.initPic.call (.enable 1)).key 0x1E
    Run (Step tables sys) resetDevices.initPic [.call (.enable 1), .key 0x1E] d ∧
      ∃ irqs, d.irqs.ack = some (33, irqs) := by
  intro tables sys d
  have hcall : Step tables sys resetDevices.initPic (.call (.enable 1))
      (resetDevices.initPic.call (.enable 1)) := rfl
  have hkey : Step tables sys (resetDevices.initPic.call (.enable 1)) (.key 0x1E) d := rfl
  have hrun := Run.cons hcall (Run.single hkey)
  have hall := (keyboard_run (fun _ => 0) 0 ⟨0, 0⟩ sys resetDevices hrun).1 rfl
  exact ⟨hrun, hall.2 (by decide) (by decide) (by decide)⟩

end Interrupts

end TuixOS
