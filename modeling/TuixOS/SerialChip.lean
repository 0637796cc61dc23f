import TuixOS.Serial

/-!
# The registers of the serial port: `init_serial`

`TuixOS.Serial` sees of the port its status and the characters it was sent. Here the port is the whole chip that
`init_serial` programs. Behind 0x3F8 are the transmitter and, while bit 7 of the line control is set, the low half
of the divisor. `init_serial` ends with the transmitter there whatever the registers held, and from then on
`serial_putchar` does to the chip what it does to the port of `TuixOS.Serial` (`serial_chip`).
-/

namespace TuixOS

open Lib

namespace Serial

structure Chip where
  port : Uart
  divisorLow : Byte
  divisorHigh : Byte
  interrupts : Byte
  fifo : Byte
  lineControl : Byte
  modemControl : Byte

namespace Chip

/-- The first two ports are the divisor's. -/
def dlab (c : Chip) : Bool := c.lineControl.getLsbD 7

def outb (port : BitVec 16) (value : Byte) (c : Chip) : Chip :=
  if port = 0x3F8 then
    if c.dlab then { c with divisorLow := value } else { c with port := c.port.send value }
  else if port = 0x3F8 + 1 then
    if c.dlab then { c with divisorHigh := value } else { c with interrupts := value }
  else if port = 0x3F8 + 2 then { c with fifo := value }
  else if port = 0x3F8 + 3 then { c with lineControl := value }
  else if port = 0x3F8 + 4 then { c with modemControl := value }
  else c

/-- `inb(0x3F8 + 5)` -/
def lineStatus (c : Chip) : Byte × Chip :=
  let (r, port) := c.port.lineStatus
  (r, { c with port := port })

/-- Code that works on the port of `TuixOS.Serial`. -/
def onPort (f : Uart → Res Uart) (c : Chip) : Res Chip := do
  let port ← f c.port
  return { c with port := port }

end Chip

def initSerial (c : Chip) : Chip :=
  let c := c.outb (0x3F8 + 2) 0x00
  let c := c.outb (0x3F8 + 1) 0x00
  let c := c.outb (0x3F8 + 3) 0x80
  let c := c.outb (0x3F8 + 0) 0x03
  let c := c.outb (0x3F8 + 1) 0x00
  let c := c.outb (0x3F8 + 3) 0x03
  c.outb (0x3F8 + 4) 0x0B

/-- `while ((inb(0x3F8 + 5) & 0x20) == 0);` -/
def chipWait : Nat → Chip → Res Chip
  | 0, _ => .error .diverge
  | fuel + 1, c =>
    let (r, c) := c.lineStatus
    if r &&& 0x20 = 0 then chipWait fuel c else .ok c

/-- `serial_putchar` -/
def chipPutchar (fuel : Nat) (b : Byte) (c : Chip) : Res Chip := do
  let c ← chipWait fuel c
  return c.outb 0x3F8 b

/-- Calls of `serial_putchar`, which is all that the functions of the driver do with the port. -/
def chipPutAll (fuel : Nat) : List Byte → Chip → Res Chip
  | [], c => .ok c
  | b :: bs, c => do
    let c ← chipPutchar fuel b c
    chipPutAll fuel bs c

variable {c c' : Chip} {fuel : Nat}

theorem outb_data (h : c.dlab = false) (b : Byte) :
    c.outb 0x3F8 b = { c with port := c.port.send b } := by
  rw [Chip.outb, if_pos rfl, if_neg (h ▸ Bool.false_ne_true)]

theorem outb_divisor (h : c.dlab = true) (b : Byte) :
    c.outb 0x3F8 b = { c with divisorLow := b } := by
  rw [Chip.outb, if_pos rfl, if_pos h]

theorem initSerial_eq (c : Chip) : initSerial c = { c with
    divisorLow := 0x03
    divisorHigh := 0x00
    interrupts := if c.dlab then c.interrupts else 0x00
    fifo := 0x00
    lineControl := 0x03
    modemControl := 0x0B } := by
  cases hdlab : c.dlab with
  | true =>
    have hbit : c.lineControl[7] = true := hdlab
    simp [initSerial, Chip.outb, Chip.dlab, hbit]
  | false =>
    have hbit : c.lineControl[7] = false := hdlab
    simp [initSerial, Chip.outb, Chip.dlab, hbit]

theorem chipWait_eq : ∀ (fuel : Nat) (c : Chip), chipWait fuel c = c.onPort (txWait fuel) := by
  intro fuel
  induction fuel with
  | zero => exact fun _ => rfl
  | succ fuel ih =>
    intro c
    by_cases hbusy : c.port.status 0 &&& 0x20 = 0
    · have hport : txWait (fuel + 1) c.port = txWait fuel c.port.lineStatus.2 := if_pos hbusy
      have hchip : chipWait (fuel + 1) c = chipWait fuel c.lineStatus.2 := if_pos hbusy
      rw [hchip, ih, Chip.onPort, Chip.onPort, hport]
      rfl
    · have hport : txWait (fuel + 1) c.port = .ok c.port.lineStatus.2 := if_neg hbusy
      have hchip : chipWait (fuel + 1) c = .ok c.lineStatus.2 := if_neg hbusy
      rw [hchip, Chip.onPort, hport]
      rfl

/-- With the transmitter behind 0x3F8. -/
theorem chipPutchar_eq (h : c.dlab = false) (b : Byte) :
    chipPutchar fuel b c = c.onPort (serialPutchar fuel b) := by
  rw [chipPutchar, chipWait_eq, Chip.onPort, Chip.onPort, serialPutchar]
  cases txWait fuel c.port with
  | error e => rfl
  | ok u =>
    have hdlab : ({ c with port := u } : Chip).dlab = false := h
    exact congrArg Except.ok (outb_data hdlab b)

theorem chipPutAll_eq : ∀ (bs : List Byte) {c : Chip}, c.dlab = false →
    chipPutAll fuel bs c = c.onPort (serialPutAll fuel bs)
  | [], _, _ => rfl
  | b :: bs, c, h => by
    rw [chipPutAll, chipPutchar_eq h, Chip.onPort, Chip.onPort, serialPutAll]
    cases serialPutchar fuel b c.port with
    | error e => rfl
    | ok u =>
      have hrest : ({ c with port := u } : Chip).dlab = false := h
      exact chipPutAll_eq bs hrest

theorem txWait_sent : ∀ {fuel : Nat} {u u' : Uart}, txWait fuel u = .ok u' → u'.sent = u.sent
  | 0, _, _, h => by cases h
  | fuel + 1, u, u', h => by
    rw [txWait] at h
    simp only at h
    split_ifs at h with hbusy
    · have hrest : u'.sent = u.lineStatus.2.sent := txWait_sent h
      exact hrest
    · cases h
      rfl

/-- With the divisor there, nothing is sent: every character becomes its low half. -/
theorem chipPutAll_sent : ∀ {bs : List Byte} {c c' : Chip}, c.dlab = true →
    chipPutAll fuel bs c = .ok c' → c'.port.sent = c.port.sent
  | [], _, _, _, hrun => by
    cases hrun
    rfl
  | b :: bs, c, c', h, hrun => by
    obtain ⟨c₁, hput, hrest⟩ := bind_eq_ok.mp hrun
    obtain ⟨c₂, hwait, hout⟩ := bind_eq_ok.mp hput
    rw [chipWait_eq] at hwait
    obtain ⟨u, htx, hret⟩ := bind_eq_ok.mp hwait
    cases hret
    have hdlab : ({ c with port := u } : Chip).dlab = true := h
    cases hout.symm.trans (congrArg Except.ok (outb_divisor hdlab b))
    have hdlab' : ({ c with port := u, divisorLow := b } : Chip).dlab = true := h
    exact (chipPutAll_sent hdlab' hrest).trans (txWait_sent htx)

/-- The chip is set to three times the shortest bit, eight bits and no parity, with one stop bit. -/
structure Configured (c : Chip) : Prop where
  divisor : word16 c.divisorLow c.divisorHigh = 3
  line : c.lineControl = 0x03
  modem : c.modemControl = 0x0B
  fifo : c.fifo = 0

/-- **The serial port.** Whatever the registers held, `init_serial` configures the chip and sends nothing, but
masks its interrupts only if bit 7 of the line control was clear. Then calls of `serial_putchar` do to the chip
what they do to the port of the model, round for round: on a port that keeps becoming ready all characters are
sent, in order, and no register changes. With bit 7 set not one would be. -/
theorem serial_chip (c : Chip) :
    (Configured (initSerial c) ∧ (initSerial c).port = c.port ∧
      ((initSerial c).interrupts = 0 ↔ c.dlab = false ∨ c.interrupts = 0)) ∧
    (∀ fuel bs, chipPutAll fuel bs (initSerial c) = (initSerial c).onPort (serialPutAll fuel bs)) ∧
    (EventuallyReady c.port → ∀ bs, ∃ port,
      Returns (fun fuel => chipPutAll fuel bs (initSerial c)) { initSerial c with port := port } ∧
        port.sent = c.port.sent ++ bs ∧ EventuallyReady port) ∧
    (c.dlab = true → ∀ fuel bs c', chipPutAll fuel bs c = .ok c' → c'.port.sent = c.port.sent) := by
  have hdlab : (initSerial c).dlab = false := by
    rw [initSerial_eq]
    exact show (0x03 : Byte).getLsbD 7 = false by decide
  have hport : (initSerial c).port = c.port := by rw [initSerial_eq]
  refine ⟨⟨?_, hport, ?_⟩, fun fuel bs => chipPutAll_eq bs hdlab, fun hready bs => ?_, fun h fuel bs c' hrun =>
    chipPutAll_sent h hrun⟩
  · rw [initSerial_eq]
    exact ⟨rfl, rfl, rfl, rfl⟩
  · rw [initSerial_eq]
    cases c.dlab with
    | true => simp
    | false => simp
  · obtain ⟨port, hret, hsent, hready'⟩ := serialPutAll_prints bs c.port hready
    refine ⟨port, ?_, hsent, hready'⟩
    simp only [chipPutAll_eq bs hdlab, Chip.onPort, hport]
    exact hret.bind (.of_ok rfl)

/-- Two characters on a port that is always ready, from registers that hide the transmitter. -/
theorem serial_chip_two : ∃ port,
    Returns (fun fuel =>
        chipPutAll fuel [chr 'o', chr 'k'] (initSerial ⟨⟨fun _ => 0x20, []⟩, 0, 0, 0x0F, 0, 0x80, 0⟩))
      { initSerial ⟨⟨fun _ => 0x20, []⟩, 0, 0, 0x0F, 0, 0x80, 0⟩ with port := port } ∧
      port.sent = [chr 'o', chr 'k'] := by
  obtain ⟨-, -, hsends, -⟩ := serial_chip ⟨⟨fun _ => 0x20, []⟩, 0, 0, 0x0F, 0, 0x80, 0⟩
  obtain ⟨port, hret, hsent, -⟩ :=
    hsends (fun n => ⟨n, le_rfl, show (0x20 : Byte) &&& 0x20 ≠ 0 by decide⟩) [chr 'o', chr 'k']
  exact ⟨port, hret, hsent⟩

end Serial

end TuixOS
