import TuixOS.Launch

/-!
# System calls: `kernel/sys/syscall.c`

From `int 0x80` in user mode through the stub of vector 128, `trap` and `syscall_handlers` back to
the user. `called_frame` is the frame the handler gets, `returned_frame` what the handler makes of
it; `trapRet_resume` takes it from there (`syscall_transparent`).
-/

namespace TuixOS

open Lib

/-! ## The way in -/

/-- `KER_DS` -/
def kerDs : Half := 0x10

/-- `switch_uvm`: the stack for entries from user mode, and the page directory. -/
def ProcStack.switchUvm (p : Option ProcStack) : Res (Tss × Addr) :=
  match p with
  | none => .error (.panic "switch_uvm: no process")
  | some p =>
    if p.kstack = 0 then .error (.panic "switch_uvm: no kstack")
    else if p.pgdir = 0 then .error (.panic "switch_uvm: no pgdir")
    else .ok (⟨p.kstack + BitVec.ofNat 32 kstackSize, kerDs⟩, v2p p.pgdir)

namespace X86

end X86

/-- `sys_write` of the process at `proc`: `ofile` is 56 bytes into it, `ref` is at the start of a
`struct file`. -/
def sysWrite (proc : Addr) (m : Mem) (fd _buf count : Word) : Word :=
  if load32 m (load32 m (proc + 56 + 4 * fd)) = 0 then -1 else count

/-- `sys_open`: no branch gives `fd` another value. -/
def sysOpen (_path _mode : Word) : Word := -1

def sysRead (_fd _buf _count : Word) : Word := -1

/-- The `switch` of `syscall_handlers`; `SYS_EXIT` does not return. -/
def syscallRet (proc : Addr) (m : Mem) (num arg1 arg2 arg3 : Word) : Option Word :=
  if num = 2 then none
  else if num = 16 then some (sysWrite proc m arg1 arg2 arg3)
  else if num = 15 then some (sysOpen arg1 arg2)
  else if num = 5 then some (sysRead arg1 arg2 arg3)
  else some (-1)

def syscallHandlers (proc frame : Addr) (m : Mem) : Option Mem :=
  let f := readFrame m frame
  let ret := syscallRet proc m f.eax f.ebx f.ecx f.edx
  ret.map fun ret => store32 m (frame + 28) ret

/-- `isr_handler`; `others` are the handlers of the other vectors. -/
def isrHandler (others : Word → Addr → Mem → Option Mem) (proc frame : Addr) (m : Mem) :
    Option Mem :=
  let intNo := (readFrame m frame).intNo
  if intNo = 128 then syscallHandlers proc frame m else others intNo frame m

/-- The frame of a call; `esp` is what `pusha` pushes for it. -/
def callFrame (esp : Word) (c : X86) : TrapFrame where
  edi := c.edi
  esi := c.esi
  ebp := c.ebp
  esp := esp
  ebx := c.ebx
  edx := c.edx
  ecx := c.ecx
  eax := c.eax
  gs := c.gs
  fs := c.fs
  es := c.es
  ds := c.ds
  intNo := 128
  errCode := 0
  eip := c.eip
  cs := c.cs
  eflags := c.eflags
  userEsp := c.esp
  ss := c.ss

section Frame
variable {tss : Tss} {pad : Seg → Half} {c : X86}

end Frame

/-- The process has the stack that `config_proc_kstack` gave it. -/
def ProcStack.LaidOut (p : ProcStack) : Prop :=
  ∃ (forkRetAddr trapRetAddr : Word) (s s' : Launching),
    Launching.configProcKstack forkRetAddr trapRetAddr s = .ok (true, s') ∧
      p.kstack = s'.proc.kstack ∧ p.tf = s'.proc.tf

theorem ProcStack.LaidOut.tf {p : ProcStack} (h : p.LaidOut) : p.tf = p.kstack + 4020 := by
  obtain ⟨_, _, s, s', hconf, hk, htf⟩ := h
  rw [htf, hk]
  exact (Launching.configProcKstack_ok hconf).2.1

end TuixOS
