import Mathlib.Data.Fintype.Basic
import Mathlib.Tactic.SplitIfs

/-!
# The interrupt lines: `kernel/drivers/pic.c`

Two 8259A controllers, the second on line 2 of the first, are programmed by `init_pic` and masked
line by line by `enable_irq` and `disable_irq`. The masks record for each line the last call that
names it (`masked_runCalls`); what the CPU is given of a line of the second controller depends on
line 2 as well (`irq_delivery_iff`).
-/

namespace TuixOS

/-! ## The controller -/

/-- What an 8259A takes the next byte on its data port for. -/
inductive PicExpect
  | icw2 (sngl ic4 : Bool)
  | icw3 (ic4 : Bool)
  | icw4
  | ocw1
  deriving DecidableEq

structure Pic where
  expect : PicExpect
  icw2 : BitVec 8
  icw3 : BitVec 8
  icw4 : BitVec 8
  mask : BitVec 8
  deriving DecidableEq

/-- A byte with bit 4 set is ICW1 and starts the initialisation; the others leave the mask. -/
def Pic.writeCmd (value : BitVec 8) (c : Pic) : Pic :=
  if value.getLsbD 4 then
    { c with
      expect := .icw2 (value.getLsbD 1) (value.getLsbD 0)
      icw4 := if value.getLsbD 0 then c.icw4 else 0
      mask := 0 }
  else c

def Pic.writeData (value : BitVec 8) (c : Pic) : Pic :=
  match c.expect with
  | .icw2 true ic4 => { c with icw2 := value, expect := if ic4 then .icw4 else .ocw1 }
  | .icw2 false ic4 => { c with icw2 := value, expect := .icw3 ic4 }
  | .icw3 ic4 => { c with icw3 := value, expect := if ic4 then .icw4 else .ocw1 }
  | .icw4 => { c with icw4 := value, expect := .ocw1 }
  | .ocw1 => { c with mask := value }

/-- The two controllers of the machine. -/
structure Pics where
  pic1 : Pic
  pic2 : Pic
  deriving DecidableEq

def pic1Cmd : BitVec 16 := 0x20
def pic1Data : BitVec 16 := 0x21
def pic2Cmd : BitVec 16 := 0xA0
def pic2Data : BitVec 16 := 0xA1

def outb (port : BitVec 16) (value : BitVec 8) (s : Pics) : Pics :=
  if port = pic1Cmd then { s with pic1 := s.pic1.writeCmd value }
  else if port = pic1Data then { s with pic1 := s.pic1.writeData value }
  else if port = pic2Cmd then { s with pic2 := s.pic2.writeCmd value }
  else if port = pic2Data then { s with pic2 := s.pic2.writeData value }
  else s

/-- The driver reads the data ports only. -/
def inb (port : BitVec 16) (s : Pics) : BitVec 8 :=
  if port = pic1Data then s.pic1.mask else if port = pic2Data then s.pic2.mask else 0xFF

/-! ## The functions -/

def disablePic (s : Pics) : Pics :=
  let s := outb pic1Data 0xFF s
  outb pic2Data 0xFF s

def initPic (s : Pics) : Pics :=
  let s := outb pic1Cmd 0x11 s
  let s := outb pic2Cmd 0x11 s
  let s := outb pic1Data 0x20 s
  let s := outb pic2Data 0x28 s
  let s := outb pic1Data 0x04 s
  let s := outb pic2Data 0x02 s
  let s := outb pic1Data 0x01 s
  let s := outb pic2Data 0x01 s
  disablePic s

/-- The common text of `enable_irq` and `disable_irq`; `f` works on the promoted operands. -/
def updateMask (f : BitVec 32 → BitVec 32 → BitVec 32) (irq : BitVec 8) (s : Pics) : Pics :=
  let (port, irq) := if irq < 8 then (pic1Data, irq) else (pic2Data, irq - 8)
  let value := (f ((inb port s).setWidth 32) (1#32 <<< irq.toNat)).setWidth 8
  outb port value s

def enableIrq : BitVec 8 → Pics → Pics := updateMask fun value bit => value &&& ~~~bit

def disableIrq : BitVec 8 → Pics → Pics := updateMask fun value bit => value ||| bit

/-! ## The lines -/

/-- `IRQ0` to `IRQ15` -/
abbrev Line := Fin 16

def irqKeyboard : Line := 1
def irqCascade : Line := 2
def irqAta1 : Line := 14

/-- The bit of the line in the mask of its own controller. -/
def Pics.masked (s : Pics) (i : Line) : Bool :=
  if i.val < 8 then s.pic1.mask.getLsbD i else s.pic2.mask.getLsbD (i - 8 : Nat)

/-- The CPU can be given the interrupt of the line. -/
def Pics.Deliverable (s : Pics) (i : Line) : Prop :=
  s.masked i = false ∧ (8 ≤ i.val → s.masked irqCascade = false)

instance (s : Pics) (i : Line) : Decidable (s.Deliverable i) := inferInstanceAs (Decidable (_ ∧ _))

inductive IrqCall
  | enable (irq : Line)
  | disable (irq : Line)
  deriving DecidableEq

namespace IrqCall

/-- The line a call names. -/
def line : IrqCall → Line
  | enable irq | disable irq => irq

def exec : IrqCall → Pics → Pics
  | enable irq => enableIrq (BitVec.ofNat 8 irq)
  | disable irq => disableIrq (BitVec.ofNat 8 irq)

end IrqCall

def runCalls (calls : List IrqCall) (s : Pics) : Pics := calls.foldl (fun s c => c.exec s) s

/-- The last call that names the line is `enable_irq`. -/
def LastEnables (i : Line) (calls : List IrqCall) : Prop :=
  (calls.filter fun c => c.line = i).getLast? = some (.enable i)

instance (i : Line) (calls : List IrqCall) : Decidable (LastEnables i calls) :=
  inferInstanceAs (Decidable (_ = _))

/-- Both controllers are initialised: the interrupts of the lines are 0x20 to 0x2F. -/
structure Pics.Programmed (s : Pics) : Prop where
  expect : s.pic1.expect = .ocw1 ∧ s.pic2.expect = .ocw1
  vectors : s.pic1.icw2 = 0x20 ∧ s.pic2.icw2 = 0x28
  cascade : s.pic1.icw3 = 0x04 ∧ s.pic2.icw3 = 0x02
  mode : s.pic1.icw4 = 0x01 ∧ s.pic2.icw4 = 0x01

/-- `init_pic` from any state of the controllers. -/
theorem initPic_eq (s : Pics) :
    initPic s = ⟨⟨.ocw1, 0x20, 0x04, 0x01, 0xFF⟩, ⟨.ocw1, 0x28, 0x02, 0x01, 0xFF⟩⟩ := by
  rfl

theorem initPic_programmed (s : Pics) : (initPic s).Programmed := by
  rw [initPic_eq]
  exact ⟨⟨rfl, rfl⟩, ⟨rfl, rfl⟩, ⟨rfl, rfl⟩, ⟨rfl, rfl⟩⟩

theorem initPic_masked (s : Pics) (i : Line) : (initPic s).masked i = true := by
  rw [initPic_eq]
  revert i
  decide

section Update
variable {s : Pics} {f : BitVec 32 → BitVec 32 → BitVec 32} {irq : Line}

/-- A call writes the mask of one controller. -/
theorem updateMask_eq (h : s.Programmed) : updateMask f (BitVec.ofNat 8 irq) s =
    if irq.val < 8 then
      { s with pic1 := { s.pic1 with
        mask := (f (s.pic1.mask.setWidth 32) (1#32 <<< irq.val)).setWidth 8 } }
    else
      { s with pic2 := { s.pic2 with
        mask := (f (s.pic2.mask.setWidth 32) (1#32 <<< (irq.val - 8))).setWidth 8 } } := by
  have hnat : (BitVec.ofNat 8 irq).toNat = irq.val := by
    rw [BitVec.toNat_ofNat]
    omega
  by_cases hlt : irq.val < 8
  · have hlt' : BitVec.ofNat 8 irq < 8 := by
      rw [BitVec.lt_def, hnat]
      exact hlt
    simp only [updateMask, if_pos hlt', if_pos hlt, hnat]
    simp [outb, inb, pic1Cmd, pic1Data, Pic.writeData, h.expect.1]
  · have hlt' : ¬BitVec.ofNat 8 irq < 8 := by
      rw [BitVec.lt_def, hnat]
      exact hlt
    have hsub : (BitVec.ofNat 8 irq - 8).toNat = irq.val - 8 := by
      rw [BitVec.toNat_sub_of_le (BitVec.not_lt.mp hlt'), hnat]
      rfl
    simp only [updateMask, if_neg hlt', if_neg hlt, hsub]
    simp [outb, inb, pic1Cmd, pic1Data, pic2Cmd, pic2Data, Pic.writeData, h.expect.2]

theorem updateMask_programmed (h : s.Programmed) :
    (updateMask f (BitVec.ofNat 8 irq) s).Programmed := by
  rw [updateMask_eq h]
  split_ifs
  · exact ⟨h.expect, h.vectors, h.cascade, h.mode⟩
  · exact ⟨h.expect, h.vectors, h.cascade, h.mode⟩

/-- Where `f` sets the bit of the line to `b` and keeps the others, so does the call. -/
theorem updateMask_masked (h : s.Programmed) {b : Bool}
    (hf : ∀ (m : BitVec 8) (n k : Nat), n < 8 → k < 8 →
      ((f (m.setWidth 32) (1#32 <<< n)).setWidth 8).getLsbD k = if k = n then b else m.getLsbD k)
    (i : Line) : (updateMask f (BitVec.ofNat 8 irq) s).masked i = if i = irq then b else s.masked i := by
  have hi := i.isLt
  have hirq := irq.isLt
  rw [updateMask_eq h]
  by_cases hlt : irq.val < 8
  · rw [if_pos hlt]
    by_cases hlt' : i.val < 8
    · simp only [Pics.masked, if_pos hlt', hf _ _ _ hlt hlt', Fin.ext_iff]
    · have hne : i ≠ irq := by
        rintro rfl
        exact hlt' hlt
      simp only [Pics.masked, if_neg hlt', if_neg hne]
  · rw [if_neg hlt]
    by_cases hlt' : i.val < 8
    · have hne : i ≠ irq := by
        rintro rfl
        exact hlt hlt'
      simp only [Pics.masked, if_pos hlt', if_neg hne]
    · have heq : i.val - 8 = irq.val - 8 ↔ i = irq := by
        rw [Fin.ext_iff]
        omega
      simp only [Pics.masked, if_neg hlt', hf _ _ _ (show irq.val - 8 < 8 by omega)
        (show i.val - 8 < 8 by omega), heq]

theorem getLsbD_one_shiftLeft {n k : Nat} (hn : n < 32) : (1#32 <<< n).getLsbD k = decide (k = n) := by
  rw [BitVec.getLsbD_shiftLeft, BitVec.getLsbD_one, Bool.eq_iff_iff]
  simp only [Bool.and_eq_true, Bool.not_eq_true', decide_eq_true_eq, decide_eq_false_iff_not]
  omega

theorem enableIrq_masked (h : s.Programmed) (i : Line) :
    (enableIrq (BitVec.ofNat 8 irq) s).masked i = if i = irq then false else s.masked i := by
  refine updateMask_masked h (fun m n k hn hk => ?_) i
  have hbit := getLsbD_one_shiftLeft (k := k) (show n < 32 by omega)
  simp only [BitVec.getLsbD_setWidth, BitVec.getLsbD_and, BitVec.getLsbD_not, hbit, hk,
    show k < 32 by omega, decide_true, Bool.true_and]
  by_cases hkn : k = n
  · simp [hkn]
  · simp [hkn]

theorem disableIrq_masked (h : s.Programmed) (i : Line) :
    (disableIrq (BitVec.ofNat 8 irq) s).masked i = if i = irq then true else s.masked i := by
  refine updateMask_masked h (fun m n k hn hk => ?_) i
  have hbit := getLsbD_one_shiftLeft (k := k) (show n < 32 by omega)
  simp only [BitVec.getLsbD_setWidth, BitVec.getLsbD_or, hbit, hk, show k < 32 by omega,
    decide_true, Bool.true_and]
  by_cases hkn : k = n
  · simp [hkn]
  · simp [hkn]

end Update

/-! ## Sequences of calls -/

theorem exec_programmed {s : Pics} (h : s.Programmed) (c : IrqCall) : (c.exec s).Programmed := by
  cases c with
  | enable irq =>
    rw [IrqCall.exec, enableIrq]
    exact updateMask_programmed h
  | disable irq =>
    rw [IrqCall.exec, disableIrq]
    exact updateMask_programmed h

theorem exec_masked {s : Pics} (h : s.Programmed) (c : IrqCall) (i : Line) :
    (c.exec s).masked i = if i = c.line then decide (c ≠ .enable i) else s.masked i := by
  cases c with
  | enable irq =>
    rw [IrqCall.exec, enableIrq_masked h]
    by_cases hi : i = irq
    · simp [IrqCall.line, hi]
    · simp [IrqCall.line, hi]
  | disable irq =>
    rw [IrqCall.exec, disableIrq_masked h]
    simp [IrqCall.line]

theorem lastEnables_snoc (i : Line) (calls : List IrqCall) (c : IrqCall) :
    LastEnables i (calls ++ [c]) ↔ if c.line = i then c = .enable i else LastEnables i calls := by
  by_cases hc : c.line = i
  · simp [LastEnables, List.filter_append, hc]
  · simp [LastEnables, List.filter_append, hc]

theorem runCalls_snoc (calls : List IrqCall) (c : IrqCall) (s : Pics) :
    runCalls (calls ++ [c]) s = c.exec (runCalls calls s) :=
  List.foldl_concat ..

theorem runCalls_programmed {s : Pics} (h : s.Programmed) (calls : List IrqCall) :
    (runCalls calls s).Programmed := by
  induction calls using List.reverseRecOn with
  | nil => exact h
  | append_singleton calls c ih =>
    rw [runCalls_snoc]
    exact exec_programmed ih c

/-- After `init_pic` the masks record the last call of each line. -/
theorem masked_runCalls (s : Pics) (calls : List IrqCall) (i : Line) :
    (runCalls calls (initPic s)).masked i = decide (¬LastEnables i calls) := by
  induction calls using List.reverseRecOn with
  | nil =>
    rw [runCalls, List.foldl_nil, initPic_masked]
    simp [LastEnables]
  | append_singleton calls c ih =>
    have hlast := lastEnables_snoc i calls c
    rw [runCalls_snoc, exec_masked (runCalls_programmed (initPic_programmed s) calls), ih]
    by_cases hc : c.line = i
    · rw [if_pos hc] at hlast
      rw [if_pos hc.symm, decide_eq_decide, hlast]
    · rw [if_neg hc] at hlast
      rw [if_neg (Ne.symm hc), decide_eq_decide, hlast]

theorem deliverable_iff (s : Pics) (calls : List IrqCall) (i : Line) :
    (runCalls calls (initPic s)).Deliverable i ↔
      LastEnables i calls ∧ (8 ≤ i.val → LastEnables irqCascade calls) := by
  simp only [Pics.Deliverable, masked_runCalls, decide_eq_false_iff_not, not_not]

/-- **Which lines are delivered.** After `init_pic` and any calls, that a line is delivered exactly if
the last call that names it is `enable_irq` holds of the lines of the first controller, of lines
that are not enabled, and, when the last call that names `IRQ_CASCADE` enables it, of every line. -/
theorem irq_delivery_iff (s : Pics) (calls : List IrqCall) (i : Line) :
    ((runCalls calls (initPic s)).Deliverable i ↔ LastEnables i calls) ↔
      i.val < 8 ∨ ¬LastEnables i calls ∨ LastEnables irqCascade calls := by
  rw [deliverable_iff, ← not_le]
  by_cases h8 : 8 ≤ i.val
  · by_cases hi : LastEnables i calls
    · simp [h8, hi]
    · simp [hi]
  · simp [h8]

/-- The lines `kernel_main` enables: the keyboard's, and the disk's in `init_ide`. -/
def bootIrqCalls : List IrqCall := [.enable irqKeyboard, .enable irqAta1]

/-- The controllers when the machine is switched on. -/
def resetPics : Pics := ⟨⟨.ocw1, 0, 0, 0, 0⟩, ⟨.ocw1, 0, 0, 0, 0⟩⟩

/-- The disk's interrupt stays behind the masked cascade line. -/
theorem ata1_undelivered : LastEnables irqAta1 bootIrqCalls ∧
    ¬(runCalls bootIrqCalls (initPic resetPics)).Deliverable irqAta1 := by
  decide

end TuixOS
