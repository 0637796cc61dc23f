import TuixOS.Lib.Chain
import TuixOS.Lib.Fuel
import TuixOS.KernelStep

/-!
# The disk's request queue: `kernel/drivers/ide.c`

The interrupt handler of the disk takes the request at the head of `ide_queue` as done and starts
the next one. The device is what the driver sees of it: what its status and data ports answer, the
registers a command is set up in, and the commands and data it has been sent. `ideHandler_returns`
says what one interrupt does, and `ide_queue_served` what any number of them do, whatever other code
does in between with processes and locks.
-/

namespace TuixOS

open Lib

namespace Ide

def sectorSize : Nat := 512
def ideBsy : BitVec 8 := 0x80
def ideDrdy : BitVec 8 := 0x40
def ideDf : BitVec 8 := 0x20
def ideErr : BitVec 8 := 0x01

def ideCmdRead : BitVec 8 := 0x20
def ideCmdWrite : BitVec 8 := 0x30
def ideCmdRdmul : BitVec 8 := 0xc4
def ideCmdWrmul : BitVec 8 := 0xc5

def bSize : Nat := 512
def fsSize : Word := 1000

def bValid : Word := 0x2
def bDirty : Word := 0x4

/-- The fields of `struct buf` that the driver uses; the block is moved in doublewords. -/
structure Buf where
  flags : Word
  dev : Word
  blockno : Word
  qnext : Word
  data : Fin (bSize / 4) → Word

/-! ## The device -/

/-- A command, as the device finds it in its registers. -/
structure Command where
  count : BitVec 8
  lba : Nat
  slave : Bool
  code : BitVec 8
  deriving DecidableEq

/-- What the device is sent. -/
inductive Sent
  | command (c : Command)
  | data (words : List Word)
  deriving DecidableEq

structure Device where
  /-- What the reads of the status port answer, from the next on. -/
  status : Nat → BitVec 8
  /-- What the reads of the data port answer, from the next on. -/
  input : Nat → Word
  control : BitVec 8
  count : BitVec 8
  lba0 : BitVec 8
  lba1 : BitVec 8
  lba2 : BitVec 8
  drive : BitVec 8
  sent : List Sent

namespace Device

/-- `inb(0x1f7)` -/
def inStatus (d : Device) : BitVec 8 × Device :=
  (d.status 0, { d with status := fun n => d.status (n + 1) })

/-- The 28 bits of the block's address in the registers. -/
def lba (d : Device) : Nat := (d.drive.extractLsb' 0 4 ++ d.lba2 ++ d.lba1 ++ d.lba0).toNat

def outb (port : BitVec 16) (value : BitVec 8) (d : Device) : Device :=
  if port = 0x3f6 then { d with control := value }
  else if port = 0x1f2 then { d with count := value }
  else if port = 0x1f3 then { d with lba0 := value }
  else if port = 0x1f4 then { d with lba1 := value }
  else if port = 0x1f5 then { d with lba2 := value }
  else if port = 0x1f6 then { d with drive := value }
  else if port = 0x1f7 then
    { d with sent := d.sent ++ [.command ⟨d.count, d.lba, d.drive.getLsbD 4, value⟩] }
  else d

/-- `outsl` to the data port -/
def outsl (words : List Word) (d : Device) : Device := { d with sent := d.sent ++ [.data words] }

/-- `insl` from the data port -/
def insl (cnt : Nat) (d : Device) : (Fin cnt → Word) × Device :=
  (fun i => d.input i, { d with input := fun n => d.input (n + cnt) })

section Ports
variable (d : Device) (value : BitVec 8)

@[simp] theorem outb_control : d.outb 0x3f6 value = { d with control := value } := rfl
@[simp] theorem outb_count : d.outb 0x1f2 value = { d with count := value } := rfl
@[simp] theorem outb_lba0 : d.outb 0x1f3 value = { d with lba0 := value } := rfl
@[simp] theorem outb_lba1 : d.outb 0x1f4 value = { d with lba1 := value } := rfl
@[simp] theorem outb_lba2 : d.outb 0x1f5 value = { d with lba2 := value } := rfl
@[simp] theorem outb_drive : d.outb 0x1f6 value = { d with drive := value } := rfl
@[simp] theorem outb_command : d.outb 0x1f7 value =
    { d with sent := d.sent ++ [.command ⟨d.count, d.lba, d.drive.getLsbD 4, value⟩] } := rfl

end Ports

end Device

/-- The status that `ide_wait` waits for. -/
def IsReady (r : BitVec 8) : Prop := r &&& (ideBsy ||| ideDrdy) = ideDrdy

instance (r : BitVec 8) : Decidable (IsReady r) := inferInstanceAs (Decidable (_ = _))

def ideWaitLoop : Nat → Device → Res (BitVec 8 × Device)
  | 0, _ => .error .diverge
  | fuel + 1, d =>
    let (r, d) := d.inStatus
    if ¬IsReady r then ideWaitLoop fuel d else .ok (r, d)

def ideWait (fuel : Nat) (errno : Int) (d : Device) : Res (Int × Device) := do
  let (r, d) ← ideWaitLoop fuel d
  if errno ≠ 0 ∧ r &&& (ideDf ||| ideErr) ≠ 0 then return (-1, d) else return (0, d)

/-! ## The driver -/

structure State (K : Type) where
  kernel : Kernel K
  /-- `ide_queue` -/
  queue : Word
  buf : Word → Buf
  device : Device

namespace State
variable {K : Type}

def setCpu (s : State K) (cpu : Cpu (LockId K)) : State K :=
  { s with kernel := s.kernel.setCpu cpu }

def setBuf (s : State K) (b : Word) (v : Buf) : State K :=
  { s with buf := Function.update s.buf b v }

end State

section Driver
variable {K : Type}

def ideStart (fuel : Nat) (b : Word) (s : State K) : Res (State K) :=
  if b = 0 then .error (.panic "ide_start")
  else if fsSize ≤ (s.buf b).blockno then .error (.panic "incorrect blockno")
  else
    let sectorPerBlock := bSize / sectorSize
    let sector : Word := (s.buf b).blockno * BitVec.ofNat 32 sectorPerBlock
    let readCmd := if sectorPerBlock = 1 then ideCmdRead else ideCmdRdmul
    let writeCmd := if sectorPerBlock = 1 then ideCmdWrite else ideCmdWrmul
    if sectorPerBlock > 7 then .error (.panic "idestart")
    else do
      let (_, d) ← ideWait fuel 0 s.device
      let d := d.outb 0x3f6 0
      let d := d.outb 0x1f2 (BitVec.ofNat 8 sectorPerBlock)
      let d := d.outb 0x1f3 ((sector &&& 0xff).setWidth 8)
      let d := d.outb 0x1f4 ((sector.sshiftRight 8 &&& 0xff).setWidth 8)
      let d := d.outb 0x1f5 ((sector.sshiftRight 16 &&& 0xff).setWidth 8)
      let d := d.outb 0x1f6
        ((0xe0 ||| (((s.buf b).dev &&& 1) <<< 4) ||| (sector.sshiftRight 24 &&& 0x0f)).setWidth 8)
      if (s.buf b).flags &&& bDirty ≠ 0 then
        let d := d.outb 0x1f7 writeCmd
        let d := d.outsl (List.ofFn (s.buf b).data)
        return { s with device := d }
      else
        let d := d.outb 0x1f7 readCmd
        return { s with device := d }

/-- `insl(0x1f0, b->data, B_SIZE / 4)`, where the block is to be read and the device has no error. -/
def ideRead (fuel : Nat) (b : Word) (s : State K) : Res (State K) :=
  if (s.buf b).flags &&& bDirty = 0 then do
    let (r, d) ← ideWait fuel 1 s.device
    let s := { s with device := d }
    if r ≥ 0 then
      let (data, d) := s.device.insl (bSize / 4)
      return { s with device := d }.setBuf b { s.buf b with data := data }
    else return s
  else .ok s

/-- The device is started on the next buffer in the queue. -/
def ideStartNext (fuel : Nat) (s : State K) : Res (State K) :=
  if s.queue ≠ 0 then ideStart fuel s.queue s else .ok s

variable [DecidableEq K] (ideLock : K)

def ideHandler (fuel : Nat) (s : State K) : Res (State K) := do
  let cpu ← acquire (.other ideLock) s.kernel.cpu
  let s := s.setCpu cpu
  let b := s.queue
  if b = 0 then
    let cpu ← release (.other ideLock) s.kernel.cpu
    return s.setCpu cpu
  let s := { s with queue := (s.buf b).qnext }
  let s ← ideRead fuel b s
  let s := s.setBuf b { s.buf b with flags := (s.buf b).flags ||| bValid }
  let s := s.setBuf b { s.buf b with flags := (s.buf b).flags &&& ~~~bDirty }
  let kernel ← wakeup b s.kernel
  let s := { s with kernel := kernel }
  let s ← ideStartNext fuel s
  let cpu ← release (.other ideLock) s.kernel.cpu
  return s.setCpu cpu

end Driver

/-! ## The device at work -/

/-- However long the device works, it becomes ready again. -/
def EventuallyReady (d : Device) : Prop := ∀ n, ∃ m, n ≤ m ∧ IsReady (d.status m)

/-- The device after `n` reads of its status. -/
def Device.skip (n : Nat) (d : Device) : Device := { d with status := fun m => d.status (m + n) }

theorem EventuallyReady.skip {d : Device} (h : EventuallyReady d) (n : Nat) :
    EventuallyReady (d.skip n) := by
  intro k
  obtain ⟨m, hm, hready⟩ := h (k + n)
  refine ⟨m - n, by omega, ?_⟩
  have hmn : m - n + n = m := by omega
  simpa only [Device.skip, hmn] using hready

theorem EventuallyReady.congr {d d' : Device} (h : EventuallyReady d) (hd : d'.status = d.status) :
    EventuallyReady d' := by
  intro n
  rw [hd]
  exact h n

theorem ideWaitLoop_returns : ∀ (m : Nat) (d : Device), IsReady (d.status m) →
    ∃ r n, Returns (fun fuel => ideWaitLoop fuel d) (r, d.skip n) := by
  intro m
  induction m with
  | zero =>
    intro d hready
    refine ⟨d.status 0, 1, 1, fun fuel hfuel => ?_⟩
    obtain ⟨fuel, rfl⟩ := Nat.exists_eq_add_of_le' hfuel
    simp only [ideWaitLoop, Device.inStatus, hready, not_true_eq_false, if_false]
    rfl
  | succ m ih =>
    intro d hready
    by_cases h0 : IsReady (d.status 0)
    · refine ⟨d.status 0, 1, 1, fun fuel hfuel => ?_⟩
      obtain ⟨fuel, rfl⟩ := Nat.exists_eq_add_of_le' hfuel
      simp only [ideWaitLoop, Device.inStatus, h0, not_true_eq_false, if_false]
      rfl
    · obtain ⟨r, n, k, hk⟩ := ih d.inStatus.2 hready
      refine ⟨r, n + 1, k + 1, fun fuel hfuel => ?_⟩
      obtain ⟨fuel, rfl⟩ := Nat.exists_eq_add_of_le' (le_trans (Nat.le_add_left 1 k) hfuel)
      have hrest := hk fuel (by omega)
      simp only [ideWaitLoop, Device.inStatus, h0, not_false_eq_true, if_true] at hrest ⊢
      rw [hrest]
      simp [Device.skip, Nat.add_assoc]

theorem ideWait_returns {d : Device} (h : EventuallyReady d) (errno : Int) :
    ∃ r n, Returns (fun fuel => ideWait fuel errno d) (r, d.skip n) := by
  obtain ⟨m, -, hm⟩ := h 0
  obtain ⟨r, n, hloop⟩ := ideWaitLoop_returns m d hm
  by_cases herr : errno ≠ 0 ∧ r &&& (ideDf ||| ideErr) ≠ 0
  · exact ⟨-1, n, hloop.bind (.of_ok (if_pos herr))⟩
  · exact ⟨0, n, hloop.bind (.of_ok (if_neg herr))⟩

/-! ## Requests -/

/-- The command for a buffer. -/
def command (b : Buf) : Command where
  count := 1
  lba := b.blockno.toNat
  slave := b.dev.getLsbD 0
  code := if b.flags &&& bDirty ≠ 0 then ideCmdWrite else ideCmdRead

/-- What the device is sent for a buffer: the command, and the block that is to be written. -/
def request (b : Buf) : List Sent :=
  .command (command b) :: if b.flags &&& bDirty ≠ 0 then [.data (List.ofFn b.data)] else []

/-- Bit 4 of the drive register tells the two disks apart. -/
theorem driveRegister_slave (dev sector : Word) :
    ((0xe0 ||| ((dev &&& 1) <<< 4) ||| (sector.sshiftRight 24 &&& 0x0f)).setWidth 8).getLsbD 4 =
      dev.getLsbD 0 := by
  simp

/-- The four registers hold the 28 low bits of the sector. -/
theorem registers_lba (dev sector : Word) :
    ((((0xe0 ||| ((dev &&& 1) <<< 4) ||| (sector.sshiftRight 24 &&& 0x0f)).setWidth 8).extractLsb' 0 4 :
      BitVec 4) ++ (sector.sshiftRight 16 &&& 0xff).setWidth 8 ++
      (sector.sshiftRight 8 &&& 0xff).setWidth 8 ++ (sector &&& 0xff).setWidth 8 : BitVec 28) =
      sector.setWidth 28 := by
  apply BitVec.eq_of_getLsbD_eq
  intro i hi
  simp only [BitVec.getLsbD_append, BitVec.getLsbD_setWidth, BitVec.getLsbD_and, BitVec.getLsbD_or,
    BitVec.getLsbD_extractLsb', BitVec.getLsbD_sshiftRight, BitVec.getLsbD_shiftLeft]
  interval_cases i <;> simp

/-- The device with the registers set up for a buffer, and its request sent. -/
def Device.issue (v : Buf) (d : Device) : Device where
  status := d.status
  input := d.input
  control := 0
  count := 1
  lba0 := (v.blockno &&& 0xff).setWidth 8
  lba1 := (v.blockno.sshiftRight 8 &&& 0xff).setWidth 8
  lba2 := (v.blockno.sshiftRight 16 &&& 0xff).setWidth 8
  drive := (0xe0 ||| ((v.dev &&& 1) <<< 4) ||| (v.blockno.sshiftRight 24 &&& 0x0f)).setWidth 8
  sent := d.sent ++ request v

section Handler
variable {K : Type} {s s' : State K} {b : Word}

theorem ideStart_eq (hb : b ≠ 0) (hblock : (s.buf b).blockno < fsSize) (fuel : Nat) :
    ideStart fuel b s = ideWait fuel 0 s.device >>= fun r =>
      .ok { s with device := r.2.issue (s.buf b) } := by
  have hlba : ((s.buf b).blockno.setWidth 28).toNat = (s.buf b).blockno.toNat := by
    have hlt : (s.buf b).blockno.toNat < 1000 := hblock
    rw [BitVec.toNat_setWidth]
    omega
  have hregisters := registers_lba (s.buf b).dev (s.buf b).blockno
  have hslave := driveRegister_slave (s.buf b).dev (s.buf b).blockno
  have hone : bSize / sectorSize = 1 := rfl
  have hmul : (s.buf b).blockno * BitVec.ofNat 32 1 = (s.buf b).blockno := BitVec.mul_one _
  rw [ideStart, if_neg hb, if_neg (BitVec.not_le.mpr hblock)]
  simp only [hone, hmul, if_true, show ¬1 > 7 by decide, if_false]
  refine bind_congr fun r => ?_
  by_cases hdirty : (s.buf b).flags &&& bDirty = 0
  · simp only [Device.outb_control, Device.outb_count, Device.outb_lba0, Device.outb_lba1,
      Device.outb_lba2, Device.outb_drive, Device.outb_command, Device.lba, hregisters, hslave, hlba,
      Device.issue, request, command, hdirty]
    rfl
  · simp only [Device.outb_control, Device.outb_count, Device.outb_lba0, Device.outb_lba1,
      Device.outb_lba2, Device.outb_drive, Device.outb_command, Device.lba, hregisters, hslave, hlba,
      Device.issue, Device.outsl, request, command, ne_eq, hdirty, not_false_eq_true, if_true,
      List.append_assoc]
    rfl

/-- The device becomes ready for the command of a buffer, and gets it. -/
theorem ideStart_returns (hb : b ≠ 0) (hblock : (s.buf b).blockno < fsSize)
    (hdev : EventuallyReady s.device) : ∃ d, Returns (fun fuel => ideStart fuel b s)
      { s with device := d } ∧ d.sent = s.device.sent ++ request (s.buf b) ∧ EventuallyReady d := by
  obtain ⟨r, n, hwait⟩ := ideWait_returns hdev 0
  simp only [ideStart_eq hb hblock]
  exact ⟨(s.device.skip n).issue (s.buf b), hwait.bind (.of_ok rfl), rfl, (hdev.skip n).congr rfl⟩

theorem ideStartNext_returns (hdev : EventuallyReady s.device)
    (hblock : s.queue ≠ 0 → (s.buf s.queue).blockno < fsSize) : ∃ d,
    Returns (fun fuel => ideStartNext fuel s) { s with device := d } ∧
    d.sent = s.device.sent ++ (if s.queue = 0 then [] else request (s.buf s.queue)) ∧
    EventuallyReady d := by
  by_cases hq : s.queue = 0
  · refine ⟨s.device, ?_, ?_, hdev⟩
    · simp only [ideStartNext, if_neg (not_not.mpr hq)]
      exact .of_ok rfl
    · rw [if_pos hq, List.append_nil]
  · obtain ⟨d, hstart, hsent, hdev'⟩ := ideStart_returns hq (hblock hq) hdev
    refine ⟨d, ?_, ?_, hdev'⟩
    · simp only [ideStartNext, if_pos hq]
      exact hstart
    · rw [if_neg hq, hsent]

/-- Only a block that is to be read is written to, and only its data. -/
theorem ideRead_returns (b : Word) (hdev : EventuallyReady s.device) : ∃ d data,
    Returns (fun fuel => ideRead fuel b s)
      { s with device := d, buf := Function.update s.buf b { s.buf b with data := data } } ∧
      ((s.buf b).flags &&& bDirty ≠ 0 → data = (s.buf b).data) ∧
      d.sent = s.device.sent ∧ EventuallyReady d := by
  by_cases hdirty : (s.buf b).flags &&& bDirty = 0
  · obtain ⟨r, n, hwait⟩ := ideWait_returns hdev 1
    simp only [ideRead, if_pos hdirty]
    by_cases hr : r ≥ 0
    · exact ⟨((s.device.skip n).insl (bSize / 4)).2, ((s.device.skip n).insl (bSize / 4)).1,
        hwait.bind (.of_ok (if_pos hr)), fun hne => absurd hdirty hne, rfl, (hdev.skip n).congr rfl⟩
    · refine ⟨s.device.skip n, (s.buf b).data, ?_, fun _ => rfl, rfl, hdev.skip n⟩
      rw [Function.update_eq_self]
      exact hwait.bind (.of_ok (if_neg hr))
  · refine ⟨s.device, (s.buf b).data, ?_, fun _ => rfl, rfl, hdev⟩
    simp only [ideRead, if_neg hdirty, Function.update_eq_self]
    exact .of_ok rfl

end Handler

/-! ## One interrupt -/

/-- The handler can run: its two locks are free, and the device becomes ready. -/
structure Ready {K : Type} (ideLock : K) (s : State K) : Prop where
  spin : SpinInv s.kernel.cpu
  room : s.kernel.cpu.ncli + 2 < intMax
  ide : (s.kernel.cpu.lock (.other ideLock)).Free
  ptable : (s.kernel.cpu.lock .ptable).Free
  device : EventuallyReady s.device

/-- The flags of a completed request. -/
def doneFlags (flags : Word) : Word := (flags ||| bValid) &&& ~~~bDirty

/-- The flags of the CPU and its locks are as they were. -/
structure CpuKept {K : Type} (s s' : State K) : Prop where
  lock : s'.kernel.cpu.lock = s.kernel.cpu.lock
  nests : Nests s.kernel.cpu s'.kernel.cpu 0

/-- The request at the head, of the buffer `b`, is completed and the next one is started. -/
structure Completes {K : Type} (b : Word) (s s' : State K) : Prop where
  queue : s'.queue = (s.buf b).qnext
  buf : ∃ data, s'.buf = Function.update s.buf b
      { s.buf b with flags := doneFlags (s.buf b).flags, data := data } ∧
    ((s.buf b).flags &&& bDirty ≠ 0 → data = (s.buf b).data)
  kernel : s'.kernel =
    { s.kernel with cpu := s'.kernel.cpu, proc := wokenProc b s.kernel.proc }
  sent : s'.device.sent = s.device.sent ++
    if (s.buf b).qnext = 0 then [] else request (s.buf (s.buf b).qnext)

section Interrupt
variable {K : Type} [DecidableEq K] {ideLock : K} {s s' : State K} {b : Word}

omit [DecidableEq K] in
theorem Ready.of_kept (h : Ready ideLock s) (hkept : CpuKept s s')
    (hdev : EventuallyReady s'.device) : Ready ideLock s' where
  spin := hkept.nests.inv
  room := by
    rw [hkept.nests.ncli]
    have := h.room
    omega
  ide := by
    rw [hkept.lock]
    exact h.ide
  ptable := by
    rw [hkept.lock]
    exact h.ptable
  device := hdev

/-- The handler takes its lock first. -/
theorem Ready.acquire (h : Ready ideLock s) : ∃ cpu,
    TuixOS.acquire (.other ideLock) s.kernel.cpu = .ok cpu ∧ Nests s.kernel.cpu cpu 1 ∧
      cpu.lock = Function.update s.kernel.cpu.lock (.other ideLock) ⟨1, some cpuId⟩ := by
  have hroom := h.room
  exact acquire_ok h.spin (by omega) h.ide

/-- Its `release` leaves the CPU as before the `acquire`. -/
theorem Ready.release (h : Ready ideLock s) {cpu : Cpu (LockId K)}
    (hn : Nests s.kernel.cpu cpu 1)
    (hl : cpu.lock = Function.update s.kernel.cpu.lock (.other ideLock) ⟨1, some cpuId⟩) :
    ∃ cpu', TuixOS.release (.other ideLock) cpu = .ok cpu' ∧ Nests s.kernel.cpu cpu' 0 ∧
      cpu'.lock = s.kernel.cpu.lock := by
  have hroom := h.room
  exact release_taken h.spin h.ide (by omega) hn hl

/-- An interrupt with no request outstanding. -/
theorem ideHandler_idle (h : Ready ideLock s) (hq : s.queue = 0) :
    ∃ cpu, Returns (fun fuel => ideHandler ideLock fuel s) (s.setCpu cpu) ∧
      CpuKept s (s.setCpu cpu) := by
  obtain ⟨cpu, hacq, hn, hl⟩ := h.acquire
  obtain ⟨cpu', hrel, hn', hl'⟩ := h.release hn hl
  refine ⟨cpu', ?_, hl', hn'⟩
  have hrun : ∀ fuel, ideHandler ideLock fuel s = .ok (s.setCpu cpu') := by
    intro fuel
    simp only [ideHandler, hacq, bind, Except.bind, State.setCpu, hq, if_true, hrel,
      Kernel.setCpu_cpu]
    rfl
  simp only [hrun]
  exact .of_ok rfl

/-- The handler behind its read of the block. -/
def ideFinish (ideLock : K) (b : Word) (fuel : Nat) (s : State K) : Res (State K) := do
  let s := s.setBuf b { s.buf b with flags := (s.buf b).flags ||| bValid }
  let s := s.setBuf b { s.buf b with flags := (s.buf b).flags &&& ~~~bDirty }
  let kernel ← wakeup b s.kernel
  let s := { s with kernel := kernel }
  let s ← ideStartNext fuel s
  let cpu ← TuixOS.release (.other ideLock) s.kernel.cpu
  return s.setCpu cpu

theorem ideHandler_eq {cpu : Cpu (LockId K)} (fuel : Nat)
    (hacq : TuixOS.acquire (.other ideLock) s.kernel.cpu = .ok cpu) (hne : s.queue ≠ 0) :
    ideHandler ideLock fuel s =
      ideRead fuel s.queue { s.setCpu cpu with queue := (s.buf s.queue).qnext } >>=
        ideFinish ideLock s.queue fuel := by
  simp only [ideHandler, hacq, bind, Except.bind, State.setCpu, hne, if_false]
  rfl

theorem ideFinish_returns {cpu : Cpu (LockId K)} (h : Ready ideLock s)
    (hn : Nests s.kernel.cpu cpu 1)
    (hl : cpu.lock = Function.update s.kernel.cpu.lock (.other ideLock) ⟨1, some cpuId⟩)
    (hblock : s.queue ≠ 0 → s.queue ≠ b ∧ (s.buf s.queue).blockno < fsSize) :
    ∃ s', Returns (fun fuel => ideFinish ideLock b fuel (s.setCpu cpu)) s' ∧
      s'.queue = s.queue ∧
      s'.buf = Function.update s.buf b { s.buf b with flags := doneFlags (s.buf b).flags } ∧
      s'.kernel = { s.kernel with cpu := s'.kernel.cpu, proc := wokenProc b s.kernel.proc } ∧
      s'.device.sent = s.device.sent ++
        (if s.queue = 0 then [] else request (s.buf s.queue)) ∧
      CpuKept s s' ∧ EventuallyReady s'.device := by
  have hroom := h.room
  have hncli := hn.ncli
  have hptable : ((s.kernel.setCpu cpu).cpu.lock .ptable).Free := by
    rw [Kernel.setCpu_cpu, hl, Function.update_of_ne (by simp)]
    exact h.ptable
  obtain ⟨cpu₁, hwakeup, hn₁, hl₁⟩ := wakeup_ok (s := s.kernel.setCpu cpu) b hn.inv
    (by rw [Kernel.setCpu_cpu]; omega) hptable
  -- the state in which the next request is started
  let s₁ : State K := { s with
    kernel := { s.kernel with cpu := cpu₁, proc := wokenProc b s.kernel.proc }
    buf := Function.update s.buf b { s.buf b with flags := doneFlags (s.buf b).flags } }
  have hbuf : s.queue ≠ 0 → s₁.buf s.queue = s.buf s.queue := fun hq =>
    Function.update_of_ne (hblock hq).1 ..
  obtain ⟨d, hstart, hsent, hdev⟩ := ideStartNext_returns (s := s₁) h.device fun hq => by
    rw [hbuf hq]
    exact (hblock hq).2
  obtain ⟨cpu₂, hrel, hn₂, hl₂⟩ := h.release (hn.trans hn₁) (hl₁.trans hl)
  refine ⟨{ s₁ with device := d }.setCpu cpu₂, ?_, rfl, rfl, rfl, ?_, ⟨hl₂, hn₂⟩, hdev⟩
  · have hrun : ∀ fuel, ideFinish ideLock b fuel (s.setCpu cpu) = ideStartNext fuel s₁ >>= fun s =>
          TuixOS.release (.other ideLock) s.kernel.cpu >>= fun cpu => .ok (s.setCpu cpu) := by
      intro fuel
      simp only [ideFinish, State.setBuf, State.setCpu, Function.update_self, Function.update_idem]
      simp only [hwakeup, bind, Except.bind]
      rfl
    simp only [hrun]
    refine hstart.bind (.of_ok ?_)
    rw [hrel]
    rfl
  · refine hsent.trans ?_
    by_cases hq : s.queue = 0
    · rw [if_pos hq, if_pos hq]
    · rw [if_neg hq, if_neg hq, hbuf hq]

theorem ideHandler_completes (h : Ready ideLock s) (hne : s.queue ≠ 0)
    (hnext : (s.buf s.queue).qnext ≠ s.queue)
    (hblock : (s.buf s.queue).qnext ≠ 0 → (s.buf (s.buf s.queue).qnext).blockno < fsSize) :
    ∃ s', Returns (fun fuel => ideHandler ideLock fuel s) s' ∧ Completes s.queue s s' ∧
      CpuKept s s' ∧ EventuallyReady s'.device := by
  obtain ⟨cpu, hacq, hn, hl⟩ := h.acquire
  obtain ⟨d, data, hread, hdata, hsent, hdev⟩ := ideRead_returns
    (s := { s.setCpu cpu with queue := (s.buf s.queue).qnext }) s.queue h.device
  -- the state behind the read, without the lock
  let s₁ : State K := { s with
    queue := (s.buf s.queue).qnext
    buf := Function.update s.buf s.queue { s.buf s.queue with data := data }
    device := d }
  have hready : Ready ideLock s₁ := ⟨h.spin, h.room, h.ide, h.ptable, hdev⟩
  have hread₁ : s₁.buf = Function.update s.buf s.queue { s.buf s.queue with data := data } := rfl
  have hbuf : s₁.buf s₁.queue = s.buf s₁.queue := Function.update_of_ne hnext ..
  obtain ⟨s', hfinish, hqueue, hbuf', hkernel, hsent', hkept, hdev'⟩ :=
    ideFinish_returns (s := s₁) (b := s.queue) hready hn hl fun hq => by
      rw [hbuf]
      exact ⟨hnext, hblock hq⟩
  refine ⟨s', ?_, ⟨hqueue, ⟨data, ?_, hdata⟩, hkernel, ?_⟩, ⟨hkept.lock, hkept.nests⟩, hdev'⟩
  · simp only [ideHandler_eq _ hacq hne]
    exact hread.bind hfinish
  · rw [hbuf', hread₁, Function.update_self, Function.update_idem]
  · rw [hsent', hbuf, show s₁.device.sent = s.device.sent from hsent]

end Interrupt

/-! ## Sequences of interrupts -/

inductive Event
  /-- A disk interrupt, with the buffer at the head of the queue. -/
  | irq (b : Word)
  /-- Other code. -/
  | other
  deriving DecidableEq

/-- The number of interrupts. -/
def irqs : List Event → Nat
  | [] => 0
  | .irq _ :: as => irqs as + 1
  | .other :: as => irqs as

/-- The buffers that were completed, in order. -/
def completed : List Event → List Word
  | [] => []
  | .irq b :: as => if b = 0 then completed as else b :: completed as
  | .other :: as => completed as

/-- Other code runs processes and handlers and leaves the queue, the buffers and the device's
registers to the driver; the locks it takes are released before the next interrupt. -/
structure OtherCode {K : Type} (ideLock : K) (s s' : State K) : Prop where
  queue : s'.queue = s.queue
  buf : s'.buf = s.buf
  sent : s'.device.sent = s.device.sent
  ready : Ready ideLock s'

def IdeStep {K : Type} [DecidableEq K] (ideLock : K) (s : State K) : Event → State K → Prop
  | .irq b, s' => b = s.queue ∧ Returns (fun fuel => ideHandler ideLock fuel s) s'
  | .other, s' => OtherCode ideLock s s'

theorem irqs_snoc (as : List Event) (a : Event) : irqs (as ++ [a]) = irqs as + irqs [a] := by
  induction as with
  | nil => simp [irqs]
  | cons b as ih =>
    cases b with
    | irq b =>
      simp only [List.cons_append, irqs, ih]
      omega
    | other => simp only [List.cons_append, irqs, ih]

theorem completed_snoc (as : List Event) (a : Event) :
    completed (as ++ [a]) = completed as ++ completed [a] := by
  induction as with
  | nil => simp [completed]
  | cons b as ih =>
    cases b with
    | irq b =>
      simp only [List.cons_append, completed, ih]
      split_ifs <;> rfl
    | other => simp only [List.cons_append, completed, ih]

/-- The queue, the buffers that are still to be served, and what the device has been sent, after `k` of the
buffers `bufs`. -/
structure Progress {K : Type} (buf₀ : Word → Buf) (bufs : List Word) (pre : List Sent) (k : Nat)
    (s : State K) : Prop where
  queue : Chain (fun b => (buf₀ b).qnext) 0 s.queue (bufs.drop k)
  kept : ∀ b, b ∉ bufs.take k → s.buf b = buf₀ b
  sent : s.device.sent = pre ++ (bufs.take (k + 1)).flatMap fun b => request (buf₀ b)

section Progress
variable {K : Type} {s s' : State K} {buf₀ : Word → Buf} {bufs : List Word} {pre : List Sent} {k : Nat}

theorem take_succ_drop (l : List Word) (k : Nat) :
    l.take (k + 1) = l.take k ++ (l.drop k).head?.toList := by
  rw [List.take_add_one, List.head?_drop]

/-- The buffers still in the queue are as they were. -/
theorem Progress.pending (h : Progress buf₀ bufs pre k s) (hnd : bufs.Nodup) {b : Word}
    (hb : b ∈ bufs.drop k) : s.buf b = buf₀ b := by
  refine h.kept b fun hb' => ?_
  rw [← List.take_append_drop k bufs] at hnd
  exact (List.nodup_append.mp hnd).2.2 b hb' b hb rfl

theorem Progress.head (h : Progress buf₀ bufs pre k s) (hq : s.queue ≠ 0) :
    ∃ rest, bufs.drop k = s.queue :: rest ∧
      Chain (fun b => (buf₀ b).qnext) 0 (buf₀ s.queue).qnext rest := by
  obtain ⟨b, rest, hdrop⟩ := List.exists_cons_of_ne_nil (h.queue.eq_nul_iff.not.mp hq)
  obtain rfl : s.queue = b := (hdrop ▸ h.queue).1
  exact ⟨rest, hdrop, (hdrop ▸ h.queue).2.2⟩

theorem Progress.head_buf (h : Progress buf₀ bufs pre k s) (hnd : bufs.Nodup) (hq : s.queue ≠ 0) :
    s.buf s.queue = buf₀ s.queue := by
  obtain ⟨rest, hdrop, -⟩ := h.head hq
  exact h.pending hnd (by simp [hdrop])

theorem Progress.take_succ (h : Progress buf₀ bufs pre k s) (hq : s.queue ≠ 0) :
    bufs.take (k + 1) = bufs.take k ++ [s.queue] := by
  obtain ⟨rest, hdrop, -⟩ := h.head hq
  rw [take_succ_drop, hdrop]
  rfl

/-- The request last sent is that of the buffer at the head. -/
theorem Progress.head_sent (h : Progress buf₀ bufs pre k s) (hnd : bufs.Nodup) (hq : s.queue ≠ 0) :
    ∃ sent, s.device.sent = sent ++ request (s.buf s.queue) := by
  rw [h.head_buf hnd hq, h.sent, h.take_succ hq]
  exact ⟨pre ++ (bufs.take k).flatMap fun b => request (buf₀ b), by simp⟩

/-- No buffer comes behind itself. -/
theorem Progress.qnext_ne (h : Progress buf₀ bufs pre k s) (hnd : bufs.Nodup) (hq : s.queue ≠ 0) :
    (s.buf s.queue).qnext ≠ s.queue := by
  obtain ⟨rest, hdrop, hrest⟩ := h.head hq
  have hndrop : (bufs.drop k).Nodup := hnd.sublist (List.drop_sublist _ _)
  rw [h.head_buf hnd hq]
  intro heq
  rw [heq] at hrest
  cases rest with
  | nil => exact hq hrest
  | cons c rest =>
    obtain rfl : s.queue = c := hrest.1
    rw [hdrop] at hndrop
    simp at hndrop

theorem Progress.take_stable (h : Progress buf₀ bufs pre k s) (hq : s.queue = 0) {n : Nat}
    (hn : k ≤ n) : bufs.take n = bufs.take k := by
  have hlen : bufs.length ≤ k := List.drop_eq_nil_iff.mp (h.queue.eq_nul_iff.mp hq)
  rw [List.take_of_length_le (le_trans hlen hn), List.take_of_length_le hlen]

/-- With an empty queue nothing is left to be served. -/
theorem Progress.idle (h : Progress buf₀ bufs pre k s) (hq : s.queue = 0) (hqueue : s'.queue = s.queue)
    (hbuf : s'.buf = s.buf) (hsent : s'.device.sent = s.device.sent) :
    Progress buf₀ bufs pre (k + 1) s' := by
  have hnil : bufs.drop k = [] := h.queue.eq_nul_iff.mp hq
  refine ⟨?_, ?_, ?_⟩
  · rw [hqueue, ← List.tail_drop, hnil]
    exact hq
  · rw [h.take_stable hq (Nat.le_succ k), hbuf]
    exact h.kept
  · rw [h.take_stable hq (by omega : k ≤ k + 1 + 1), ← h.take_stable hq (Nat.le_succ k), hsent]
    exact h.sent

/-- The head has left the queue, and the request of the next buffer has been sent. -/
theorem Progress.completes (h : Progress buf₀ bufs pre k s) (hnd : bufs.Nodup) (hq : s.queue ≠ 0)
    {v : Buf} (hqueue : s'.queue = (s.buf s.queue).qnext)
    (hbuf : s'.buf = Function.update s.buf s.queue v)
    (hsent : s'.device.sent = s.device.sent ++ if (s.buf s.queue).qnext = 0 then []
      else request (s.buf (s.buf s.queue).qnext)) :
    Progress buf₀ bufs pre (k + 1) s' := by
  obtain ⟨rest, hdrop, hrest⟩ := h.head hq
  have hhead := h.head_buf hnd hq
  have hdrop' : bufs.drop (k + 1) = rest := by
    rw [← List.tail_drop, hdrop, List.tail_cons]
  refine ⟨?_, fun b hb => ?_, ?_⟩
  · rw [hdrop', hqueue, hhead]
    exact hrest
  · rw [h.take_succ hq] at hb
    have hbq : b ≠ s.queue := by
      rintro rfl
      exact hb (by simp)
    rw [hbuf, Function.update_of_ne hbq]
    exact h.kept b fun hb' => hb (List.mem_append_left _ hb')
  · rw [take_succ_drop, hdrop', hsent, h.sent, hhead, List.flatMap_append, List.append_assoc]
    congr 2
    cases rest with
    | nil =>
      have hnull : (buf₀ s.queue).qnext = 0 := hrest
      rw [if_pos hnull]
      rfl
    | cons c rest =>
      obtain ⟨hc, hc0, -⟩ := Chain.cons_iff.mp hrest
      have hpending : s.buf c = buf₀ c := h.pending hnd (by simp [hdrop])
      rw [hc, if_neg hc0, hpending]
      simp

end Progress

/-- Where the driver stands after the events `as`, from the queue `bufs` and the buffers `buf₀`. -/
structure Served {K : Type} (ideLock : K) (buf₀ : Word → Buf) (bufs : List Word) (pre : List Sent)
    (as : List Event) (s : State K) : Prop where
  ready : Ready ideLock s
  queue : Chain (fun b => (buf₀ b).qnext) 0 s.queue (bufs.drop (irqs as))
  completed : completed as = bufs.take (irqs as)
  done : ∀ b ∈ bufs.take (irqs as), (s.buf b).flags = doneFlags (buf₀ b).flags
  kept : ∀ b, b ∉ bufs.take (irqs as) → s.buf b = buf₀ b
  sent : s.device.sent = pre ++ (bufs.take (irqs as + 1)).flatMap fun b => request (buf₀ b)

section Runs
variable {K : Type} [DecidableEq K] {ideLock : K} {s s' : State K} {buf₀ : Word → Buf}
  {bufs : List Word} {pre : List Sent} {as : List Event}

omit [DecidableEq K] in
theorem Served.progress (h : Served ideLock buf₀ bufs pre as s) :
    Progress buf₀ bufs pre (irqs as) s :=
  ⟨h.queue, h.kept, h.sent⟩

omit [DecidableEq K] in
/-- The request behind the head can be started. -/
theorem Served.next (h : Served ideLock buf₀ bufs pre as s)
    (hblock : ∀ b ∈ bufs, (buf₀ b).blockno < fsSize) (hnd : bufs.Nodup) (hq : s.queue ≠ 0) :
    (s.buf s.queue).qnext ≠ 0 → (s.buf (s.buf s.queue).qnext).blockno < fsSize := by
  obtain ⟨rest, hdrop, hrest⟩ := h.progress.head hq
  intro hne
  rw [h.progress.head_buf hnd hq] at hne ⊢
  obtain ⟨c, rest, rfl⟩ := List.exists_cons_of_ne_nil (hrest.eq_nul_iff.not.mp hne)
  obtain ⟨hc, -, -⟩ := Chain.cons_iff.mp hrest
  have hmem : c ∈ bufs.drop (irqs as) := by simp [hdrop]
  rw [hc, h.progress.pending hnd hmem]
  exact hblock c (List.mem_of_mem_drop hmem)

/-- What an interrupt does in such a state. -/
theorem Served.handler (h : Served ideLock buf₀ bufs pre as s)
    (hblock : ∀ b ∈ bufs, (buf₀ b).blockno < fsSize) (hnd : bufs.Nodup) :
    ∃ s', Returns (fun fuel => ideHandler ideLock fuel s) s' ∧ CpuKept s s' ∧
      EventuallyReady s'.device ∧ (s.queue ≠ 0 → Completes s.queue s s') ∧
      (s.queue = 0 → ∃ cpu, s' = s.setCpu cpu) := by
  by_cases hq : s.queue = 0
  · obtain ⟨cpu, hret, hkept⟩ := ideHandler_idle h.ready hq
    exact ⟨_, hret, hkept, h.ready.device, fun hne => absurd hq hne, fun _ => ⟨cpu, rfl⟩⟩
  · obtain ⟨s', hret, hcompletes, hkept, hdev⟩ := ideHandler_completes h.ready hq
      (h.progress.qnext_ne hnd hq) (h.next hblock hnd hq)
    exact ⟨s', hret, hkept, hdev, fun _ => hcompletes, fun hq' => absurd hq' hq⟩

omit [DecidableEq K] in
/-- An interrupt with no request outstanding changes nothing the driver has. -/
theorem Served.irq_idle (h : Served ideLock buf₀ bufs pre as s) (hq : s.queue = 0)
    {cpu : Cpu (LockId K)} (hkept : CpuKept s (s.setCpu cpu)) :
    Served ideLock buf₀ bufs pre (as ++ [.irq s.queue]) (s.setCpu cpu) := by
  have hk : irqs (as ++ [.irq s.queue]) = irqs as + 1 := irqs_snoc ..
  have hprogress : Progress buf₀ bufs pre (irqs as + 1) (s.setCpu cpu) :=
    h.progress.idle hq rfl rfl rfl
  have htake := h.progress.take_stable hq (Nat.le_succ _)
  rw [← hk] at hprogress
  refine ⟨h.ready.of_kept hkept h.ready.device, hprogress.queue, ?_, ?_, hprogress.kept,
    hprogress.sent⟩
  · rw [hk, htake, completed_snoc, hq, h.completed]
    exact List.append_nil _
  · rw [hk, htake]
    exact h.done

omit [DecidableEq K] in
/-- An interrupt completes the request at the head. -/
theorem Served.irq_completes (h : Served ideLock buf₀ bufs pre as s) (hnd : bufs.Nodup)
    (hq : s.queue ≠ 0) (hcompletes : Completes s.queue s s') (hkept : CpuKept s s')
    (hdev : EventuallyReady s'.device) :
    Served ideLock buf₀ bufs pre (as ++ [.irq s.queue]) s' := by
  have hk : irqs (as ++ [.irq s.queue]) = irqs as + 1 := irqs_snoc ..
  obtain ⟨data, hbuf, -⟩ := hcompletes.buf
  have hprogress := h.progress.completes hnd hq hcompletes.queue hbuf hcompletes.sent
  rw [← hk] at hprogress
  refine ⟨h.ready.of_kept hkept hdev, hprogress.queue, ?_, fun b hb => ?_, hprogress.kept,
    hprogress.sent⟩
  · rw [hk, h.progress.take_succ hq, completed_snoc, h.completed, Ide.completed, if_neg hq]
    rfl
  · rw [hk, h.progress.take_succ hq] at hb
    by_cases hbq : b = s.queue
    · subst hbq
      rw [hbuf, Function.update_self, h.progress.head_buf hnd hq]
    · rw [hbuf, Function.update_of_ne hbq]
      exact h.done b (by simpa [hbq] using hb)

theorem Served.step (h : Served ideLock buf₀ bufs pre as s)
    (hblock : ∀ b ∈ bufs, (buf₀ b).blockno < fsSize) (hnd : bufs.Nodup) {a : Event}
    (hstep : IdeStep ideLock s a s') : Served ideLock buf₀ bufs pre (as ++ [a]) s' := by
  cases a with
  | irq b =>
    obtain ⟨rfl, hret⟩ := hstep
    obtain ⟨s'', hret', hkept, hdev, hcompletes, hidle⟩ := h.handler hblock hnd
    obtain rfl := hret'.unique hret
    by_cases hq : s.queue = 0
    · obtain ⟨cpu, rfl⟩ := hidle hq
      exact h.irq_idle hq hkept
    · exact h.irq_completes hnd hq (hcompletes hq) hkept hdev
  | other =>
    have hk : irqs (as ++ [.other]) = irqs as := irqs_snoc ..
    refine ⟨hstep.ready, ?_, ?_, ?_, ?_, ?_⟩
    · rw [hk, hstep.queue]
      exact h.queue
    · rw [hk, completed_snoc, h.completed]
      exact List.append_nil _
    · rw [hk, hstep.buf]
      exact h.done
    · rw [hk, hstep.buf]
      exact h.kept
    · rw [hk, hstep.sent]
      exact h.sent

/-- **The disk's queue.** From a queue `bufs` whose first command has been sent, after any disk
interrupts with other code in between: the interrupts have completed the buffers in the order of the
queue, and no other buffer has changed; the queue holds the rest; each command has been sent once, the
last one for the buffer at the head; and the next interrupt returns, wakes the sleepers of the
buffer at the head, changes nothing if there is none, and leaves the lock free. -/
theorem ide_queue_served {s₀ s : State K} {as : List Event} (h₀ : Ready ideLock s₀)
    (hqueue : Chain (fun b => (s₀.buf b).qnext) 0 s₀.queue bufs)
    (hblock : ∀ b ∈ bufs, (s₀.buf b).blockno < fsSize)
    (hsent : s₀.device.sent = pre ++ (bufs.take 1).flatMap fun b => request (s₀.buf b))
    (hrun : Run (IdeStep ideLock) s₀ as s) :
    completed as = bufs.take (irqs as) ∧
    (∀ b ∈ bufs.take (irqs as), (s.buf b).flags = doneFlags (s₀.buf b).flags) ∧
    (∀ b, b ∉ bufs.take (irqs as) → s.buf b = s₀.buf b) ∧
    Chain (fun b => (s.buf b).qnext) 0 s.queue (bufs.drop (irqs as)) ∧
    s.device.sent = pre ++ (bufs.take (irqs as + 1)).flatMap (fun b => request (s₀.buf b)) ∧
    (s.queue ≠ 0 → ∃ sent, s.device.sent = sent ++ request (s.buf s.queue)) ∧
    (s.kernel.cpu.lock (.other ideLock)).Free ∧
    ∃ s', Returns (fun fuel => ideHandler ideLock fuel s) s' ∧
      s'.kernel.cpu.lock = s.kernel.cpu.lock ∧ s'.kernel.cpu.ncli = s.kernel.cpu.ncli ∧
      (s.queue ≠ 0 → s'.kernel.proc = wokenProc s.queue s.kernel.proc) ∧
      (s.queue = 0 → ∃ cpu, s' = s.setCpu cpu) := by
  have hnd := hqueue.nodup
  have h : Served ideLock s₀.buf bufs pre as s := by
    refine hrun.invariant ⟨h₀, hqueue, rfl, by simp [irqs], fun _ _ => rfl, hsent⟩ ?_
    exact fun as a t t' ht hstep => ht.step hblock hnd hstep
  obtain ⟨s', hret, hkept, -, hcompletes, hidle⟩ := h.handler hblock hnd
  refine ⟨h.completed, h.done, h.kept, ?_, h.sent, fun hq => ?_, h.ready.ide,
    s', hret, hkept.lock, ?_, fun hq => ?_, hidle⟩
  · exact h.queue.congr fun b hb => by rw [h.progress.pending hnd hb]
  · exact h.progress.head_sent hnd hq
  · rw [hkept.nests.ncli, Int.add_zero]
  · rw [(hcompletes hq).kernel]

end Runs

/-- A read and a write in the queue, the read started. -/
def twoRequests : State Unit where
  kernel := bootKernel
  queue := 0x100
  buf b := if b = 0x100 then ⟨0, 1, 7, 0x200, fun _ => 0⟩ else ⟨bDirty, 1, 8, 0, fun _ => 0⟩
  device := ⟨fun _ => ideDrdy, fun _ => 0, 0, 0, 0, 0, 0, 0, [.command ⟨1, 7, true, ideCmdRead⟩]⟩

theorem ready_twoRequests : Ready () twoRequests where
  spin := Quiet.inv boot_bootKernel.cpu
  room := by decide
  ide := rfl
  ptable := rfl
  device n := ⟨n, le_refl n, show IsReady ideDrdy by decide⟩

/-- The first interrupt completes the read and starts the write. -/
theorem ide_queue_served_two : ∃ s, Run (IdeStep ()) twoRequests [.irq 0x100] s ∧
    (s.buf 0x100).flags = doneFlags 0 ∧ Chain (fun b => (s.buf b).qnext) 0 s.queue [0x200] ∧
    s.device.sent = request (twoRequests.buf 0x100) ++ request (twoRequests.buf 0x200) := by
  have hqueue : Chain (fun b => (twoRequests.buf b).qnext) 0 twoRequests.queue [0x100, 0x200] :=
    ⟨rfl, by decide, rfl, by decide, rfl⟩
  have hblock : ∀ b ∈ [(0x100 : Word), 0x200], (twoRequests.buf b).blockno < fsSize := by
    intro b _
    simp only [twoRequests]
    split_ifs <;> decide
  have hread : request (twoRequests.buf 0x100) = twoRequests.device.sent := by
    rw [request, if_neg (by decide)]
    rfl
  have hsent : twoRequests.device.sent =
      [] ++ ([(0x100 : Word), 0x200].take 1).flatMap fun b => request (twoRequests.buf b) := by
    simp only [List.nil_append, List.take_succ_cons, List.take_zero, List.flatMap_singleton, hread]
  obtain ⟨-, -, -, -, -, -, -, s, hret, -⟩ :=
    ide_queue_served ready_twoRequests hqueue hblock hsent .nil
  have hrun : Run (IdeStep ()) twoRequests [.irq 0x100] s := .single ⟨rfl, hret⟩
  obtain ⟨-, hdone, -, hrest, hsent', -⟩ :=
    ide_queue_served ready_twoRequests hqueue hblock hsent hrun
  exact ⟨s, hrun, hdone 0x100 (by decide), hrest, hsent'.trans (by simp [irqs])⟩

end Ide

end TuixOS
