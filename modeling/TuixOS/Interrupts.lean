import TuixOS.Idt
import TuixOS.InService
import TuixOS.Serial

/-!
# Interrupt handlers: `kernel/trap/interrupts.c`, `drivers/timer.c`, `drivers/keyboard.c`

What a handler does to its trap frame and to the devices, and what the interrupted code finds when it goes on,
for every vector for which the CPU pushes no error code (`interrupt_outcome`). A handler that halts for good
ends in an error. The handler of vector 128 is in `TuixOS.Syscall`; here it is `sys`.
-/

namespace TuixOS

open Lib

namespace Interrupts

open Idt (Isr)
open Serial (chr)

/-! ## The devices -/

/-- What has been written for the user. -/
inductive Output
  /-- A call of `serial_printf`. -/
  | serial (format : String) (args : List Word)
  /-- A call of `kprint`. -/
  | screen (row col : Int) (text : String)
  deriving DecidableEq

structure Devices where
  irqs : Controllers
  timerTicks : Word
  /-- The codes of the keyboard that were not read yet. The first is in the output buffer. -/
  keys : List Byte
  /-- What the output buffer gives when no code waits. -/
  lastKey : Byte
  cr0 : Word
  /-- The address of the last page fault. -/
  cr2 : Word
  log : List Output

namespace Devices

def serialPrintf (format : String) (args : List Word) (d : Devices) : Devices :=
  { d with log := d.log ++ [.serial format args] }

def kprint (row col : Int) (text : String) (d : Devices) : Devices :=
  { d with log := d.log ++ [.screen row col text] }

def raise (i : Line) (d : Devices) : Devices := { d with irqs := d.irqs.raise i }

/-- `send_eoi(frame->int_no)`, whose parameter has 8 bits. -/
def sendEoi (intNo : Word) (d : Devices) : Devices :=
  { d with irqs := TuixOS.sendEoi (intNo.setWidth 8) d.irqs }

/-- `inb(0x60)`. Another code that waits gets to the output buffer, and the line rises again. -/
def inb60 (d : Devices) : Byte × Devices :=
  match d.keys with
  | [] => (d.lastKey, d)
  | [code] => (code, { d with keys := [], lastKey := code })
  | code :: next :: codes => (code, { d with keys := next :: codes, lastKey := code }.raise irqKeyboard)

end Devices

/-- A handler returns, with its frame as it leaves it, or halts. -/
abbrev Outcome := Except Devices (TrapFrame × Devices)

/-! ## The handlers -/

def scancodeToChar (scancode : Byte) : Byte :=
  match scancode.toNat with
  | 0x02 => chr '1' | 0x03 => chr '2' | 0x04 => chr '3' | 0x05 => chr '4' | 0x06 => chr '5'
  | 0x07 => chr '6' | 0x08 => chr '7' | 0x09 => chr '8' | 0x0A => chr '9' | 0x0B => chr '0'
  | 0x10 => chr 'q' | 0x11 => chr 'w' | 0x12 => chr 'e' | 0x13 => chr 'r' | 0x14 => chr 't'
  | 0x15 => chr 'y' | 0x16 => chr 'u' | 0x17 => chr 'i' | 0x18 => chr 'o' | 0x19 => chr 'p'
  | 0x1E => chr 'a' | 0x1F => chr 's' | 0x20 => chr 'd' | 0x21 => chr 'f' | 0x22 => chr 'g'
  | 0x23 => chr 'h' | 0x24 => chr 'j' | 0x25 => chr 'k' | 0x26 => chr 'l'
  | 0x2C => chr 'z' | 0x2D => chr 'x' | 0x2E => chr 'c' | 0x2F => chr 'v' | 0x30 => chr 'b'
  | 0x31 => chr 'n' | 0x32 => chr 'm'
  -- the grave accent, the backslash and the apostrophe
  | 0x29 => 0x60 | 0x2B => 0x5C | 0x28 => 0x27
  | 0x0C => chr '-' | 0x0D => chr '=' | 0x1A => chr '[' | 0x1B => chr ']' | 0x27 => chr ';'
  | 0x33 => chr ',' | 0x34 => chr '.' | 0x35 => chr '/'
  | 0x39 => chr ' ' | 0x1C => chr '\n'
  -- backspace and escape
  | 0x0E => 0x08 | 0x01 => 0x1B
  | _ => 0

def timerHandler (frame : TrapFrame) (d : Devices) : Outcome :=
  let d := { d with timerTicks := d.timerTicks + 1 }
  .ok (frame, d.sendEoi frame.intNo)

/-- The text for a key that is pressed; nothing for a key that is released. -/
def reportKey (scancode : Byte) (d : Devices) : Devices :=
  if scancode < 0x80 then
    let c := scancodeToChar scancode
    if c ≠ 0 then d.serialPrintf "按键按下:[%c] 扫描码:%x\n" [c.signExtend 32, scancode.setWidth 32]
    else d.serialPrintf "特殊键按下，扫描码:%x\n" [scancode.setWidth 32]
  else d

def keyboardHandler (frame : TrapFrame) (d : Devices) : Outcome :=
  let (scancode, d) := d.inb60
  let d := reportKey scancode d
  .ok (frame, d.sendEoi frame.intNo)

/-- The common text of the handlers that print a line and leave the frame. -/
def prints (format : String) (args : TrapFrame → List Word) (frame : TrapFrame) (d : Devices) :
    Outcome :=
  .ok (frame, d.serialPrintf format (args frame))

/-- The common text of the handlers that print and halt. -/
def halts (lines : TrapFrame → List (String × List Word)) (frame : TrapFrame) (d : Devices) : Outcome :=
  .error ((lines frame).foldl (fun d line => d.serialPrintf line.1 line.2) d)

/-- `isr_page_fault_handler`; its last lines have a `%s` without an argument. -/
def pageFaultHandler (frame : TrapFrame) (d : Devices) : Outcome :=
  let bit (mask : Word) : List Word := [if frame.errCode &&& mask ≠ 0 then 1 else 0]
  halts (fun f =>
    [("Error Code: %x\n", [f.errCode]),
      if f.errCode &&& 0x1 ≠ 0 then ("Page Fault: 页面不存在 %x\n", [d.cr2])
      else ("Page Fault: 权限错误 %x - Halting\n", [d.cr2]),
      ("  P=%d\n", bit 0x1), ("  W/R=%d (%s operation)\n", bit 0x2), ("  U/S=%d (%s mode)\n", bit 0x4),
      ("  RSVD=%d (Reserved bit %s)\n", bit 0x8), ("  I/D=%d (%s fetch)\n", bit 0x10)]) frame d

/-- `isr_##name##_handler`; `sys` is that of `syscall`. -/
def isr (sys : TrapFrame → Devices → Outcome) : Isr → TrapFrame → Devices → Outcome
  | .divideError, f, d =>
    .ok ({ f with eax := 0, eip := f.eip + 2 },
      d.serialPrintf "Divide Error at EIP: %x - Fixed\n" [f.eip])
  | .debugException, f, d =>
    halts (fun f => [("Debug Exception at EIP: %x - Continue\n", [f.eip])]) f d
  | .nmi, f, d => halts (fun _ => [("NMI Interrupt - Hardware Failure\n", []), ("System Halted\n", [])]) f d
  | .breakpoint, f, d => prints "Breakpoint at EIP: %x - Continue\n" (fun f => [f.eip]) f d
  | .overflow, f, d => prints "Overflow at EIP: %x - Cleared\n" (fun f => [f.eip]) f d
  | .boundsCheck, f, d => prints "Bounds Check at EIP: %x - Fixed\n" (fun f => [f.eip]) f d
  | .invalidOpcode, f, d =>
    halts (fun f => [("Invalid Opcode at EIP: %x\n", [f.eip]), ("Unrecoverable - System Halted\n", [])]) f d
  | .deviceNotAvailable, f, d =>
    let d := d.serialPrintf "Device Not Available\n" []
    .ok (f, { d with cr0 := d.cr0 &&& 0xFFFFFFFB })
  | .doubleFault, f, d => halts (fun f => [("Double Fault! Error: %x\n", [f.errCode])]) f d
  | .coprocessorSegment, f, d => prints "Coprocessor Segment Overrun - Fixed\n" (fun _ => []) f d
  | .invalidTss, f, d =>
    halts (fun f => [("Invalid TSS. Error: %x\n", [f.errCode]), ("Kernel Panic - System Halted\n", [])]) f d
  | .segmentNotPresent, f, d => prints "Segment Not Present. Error: %x\n" (fun f => [f.errCode]) f d
  | .stackSegmentFault, f, d =>
    halts (fun f => [("Stack Segment Fault. Error: %x\n", [f.errCode]),
      ("Stack Corrupted - System Halted\n", [])]) f d
  | .generalProtectionFault, f, d =>
    halts (fun f => [("General Protection Fault! Error: %x\n", [f.errCode]), ("System Halted\n", [])]) f d
  | .pageFault, f, d => pageFaultHandler f d
  | .reserved15, f, d => prints "Reserved Exception 15 - Ignored\n" (fun _ => []) f d
  -- `fnclex`
  | .floatingPoint, f, d => prints "Floating Point Exception - Cleared\n" (fun _ => []) f d
  | .alignmentCheck, f, d => prints "Alignment Check. Error: %x - Fixed\n" (fun f => [f.errCode]) f d
  | .machineCheck, f, d =>
    halts (fun _ => [("Machine Check - Hardware Failure\n", []),
      ("Critical Error - System Halted\n", [])]) f d
  -- `ldmxcsr`
  | .simdFloatingPoint, f, d => prints "SIMD Floating Point Exception - Cleared\n" (fun _ => []) f d
  | .virtualization, f, d => prints "Virtualization Exception - Ignored\n" (fun _ => []) f d
  | .controlProtection, f, d =>
    prints "Control Protection Exception. Error: %x\n" (fun f => [f.errCode]) f d
  | .reserved22, f, d => prints "Reserved Exception 22 - Ignored\n" (fun _ => []) f d
  | .reserved23, f, d => prints "Reserved Exception 23 - Ignored\n" (fun _ => []) f d
  | .reserved24, f, d => prints "Reserved Exception 24 - Ignored\n" (fun _ => []) f d
  | .reserved25, f, d => prints "Reserved Exception 25 - Ignored\n" (fun _ => []) f d
  | .reserved26, f, d => prints "Reserved Exception 26 - Ignored\n" (fun _ => []) f d
  | .reserved27, f, d => prints "Reserved Exception 27 - Ignored\n" (fun _ => []) f d
  | .hypervisorInjection, f, d => prints "Hypervisor Injection Exception - Ignored\n" (fun _ => []) f d
  | .vmmCommunication, f, d => prints "VMM Communication Exception - Ignored\n" (fun _ => []) f d
  | .securityException, f, d =>
    .ok (f, (d.serialPrintf "Security Exception. Error: %x\n" [f.errCode]).serialPrintf
      "Security violation detected\n" [])
  | .timer, f, d => timerHandler f d
  | .keyboard, f, d => keyboardHandler f d
  | .ata1, f, d => .ok (f, (d.serialPrintf "主磁盘中断触发!" []).sendEoi f.intNo)
  | .reserved31, f, d | .cascade, f, d | .com2, f, d | .com1, f, d | .lpt2, f, d | .floppy, f, d
  | .lpt1, f, d | .rtc, f, d | .reserved41, f, d | .reserved42, f, d | .reserved43, f, d
  | .ps2Mouse, f, d | .fpu, f, d | .ata2, f, d => .ok (f, d)
  | .syscall, f, d => sys f d

/-- The two digits of `num_str`. -/
def numStr (n : Word) : String :=
  .ofList [Char.ofNat ('0'.toNat + n.toNat / 10), Char.ofNat ('0'.toNat + n.toNat % 10)]

def isrDefaultHandler (frame : TrapFrame) (d : Devices) : Outcome :=
  if frame.intNo < 32 then .error ((d.kprint 15 0 "Ex:\n").kprint 15 3 (numStr frame.intNo))
  else .ok (frame, d)

def isrHandler (tables : Idt.Tables) (sys : TrapFrame → Devices → Outcome) (frame : TrapFrame)
    (d : Devices) : Res Outcome := do
  match ← Idt.handlerAt tables frame.intNo with
  | some name => return isr sys name frame d
  | none => return isrDefaultHandler frame d

end Interrupts

end TuixOS
