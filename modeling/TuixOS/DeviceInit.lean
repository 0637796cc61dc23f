import TuixOS.Ide
import TuixOS.InitUser
import TuixOS.IrqRun

/-!
# The devices at boot: `init_timer`, `init_keyboard_system`, `init_ide`

`kernel_main` sets up the interrupt controllers, the timer, the keyboard and the disks, in this order, before
it enables interrupts. `init_timer` loads the greatest count of the 8254 for which the timer is not slower than
asked (`init_timer_rate`), and `init_ide` returns exactly if the first disk becomes ready and the second one
answers in time (`init_ide_outcome`). No code enables lines 0 and 2, so the keyboard is the only device that
ever interrupts (`keyboard_only`).
-/

namespace TuixOS

open Lib
open Interrupts (Devices Output)

/-! ## The timer -/

/-- Channel 0 of the 8254, behind ports 0x40 and 0x43. -/
structure Pit where
  access : BitVec 2
  mode : BitVec 3
  bcd : Bool
  /-- The low byte of a count whose high byte is still to come. -/
  low : Option Byte
  reload : Half
  deriving DecidableEq

namespace Pit

/-- A control word. Those of other channels and the latch command leave the channel as it is. -/
def writeControl (value : Byte) (p : Pit) : Pit :=
  if value.extractLsb' 6 2 ≠ 0 ∨ value.extractLsb' 4 2 = 0 then p
  else
    { p with
      access := value.extractLsb' 4 2
      mode := value.extractLsb' 1 3
      bcd := value.getLsbD 0
      low := none }

def writeCount (value : Byte) (p : Pit) : Pit :=
  if p.access = 1 then { p with reload := word16 value 0 }
  else if p.access = 2 then { p with reload := word16 0 value }
  else
    match p.low with
    | none => { p with low := some value }
    | some low => { p with low := none, reload := word16 low value }

section Count
variable (value low : Byte) (mode : BitVec 3) (bcd : Bool) (reload : Half)

@[simp] theorem writeCount_low :
    writeCount value ⟨3, mode, bcd, none, reload⟩ = ⟨3, mode, bcd, some value, reload⟩ := rfl

@[simp] theorem writeCount_high :
    writeCount value ⟨3, mode, bcd, some low, reload⟩ = ⟨3, mode, bcd, none, word16 low value⟩ := rfl

end Count

/-- The clocks of a period of the output; a count of 0 stands for the greatest. -/
def period (p : Pit) : Nat := if p.reload = 0 then 65536 else p.reload.toNat

end Pit

/-! ## The functions -/

/-- What `kernel_main` sets up. -/
structure BootDevices where
  devices : Devices
  pit : Pit
  disk : Ide.Device
  ideLock : Spinlock
  haveDisk1 : Bool

namespace BootDevices

def serialPrintf (format : String) (args : List Word) (s : BootDevices) : BootDevices :=
  { s with devices := s.devices.serialPrintf format args }

end BootDevices

def initTimer (frequency : Word) (s : BootDevices) : BootDevices :=
  if frequency = 0 then s.serialPrintf "frequency cannot be zero!\n" []
  else
    let divisor := 1193180 / frequency
    let (divisor, s) :=
      if 65535 < divisor then
        (65535, s.serialPrintf "Warning: frequency too low, using minimum frequency\n" [])
      else if divisor < 1 then
        (1, s.serialPrintf "Warning: frequency too high, using maximum frequency\n" [])
      else (divisor, s)
    let s := { s with pit := s.pit.writeControl 0x36 }
    let s := { s with pit := s.pit.writeCount ((divisor &&& 0xFF).setWidth 8) }
    let s := { s with pit := s.pit.writeCount ((divisor >>> 8 &&& 0xFF).setWidth 8) }
    s.serialPrintf "Timer initialized with frequency: %d Hz\n" [frequency]

def initKeyboardSystem (s : BootDevices) : BootDevices :=
  { s with devices := (s.devices.call (.enable irqKeyboard)).kprint 5 0 "Keyboard system ready..." }

/-- `if(inb(0x1f7) != 0)`, with the rounds that are left: whether a disk answered. -/
def probeLoop : Nat → Ide.Device → Bool × Ide.Device
  | 0, d => (false, d)
  | rounds + 1, d =>
    let (r, d) := d.inStatus
    if r ≠ 0 then (true, d) else probeLoop rounds d

def initIde (fuel : Nat) (s : BootDevices) : Res BootDevices := do
  let s := { s with ideLock := initLock }
  let s := { s with devices := s.devices.call (.enable irqAta1) }
  let (_, disk) ← Ide.ideWait fuel 0 s.disk
  let disk := disk.outb 0x1f6 (0xe0 ||| 1 <<< 4)
  let (found, disk) := probeLoop 1000 disk
  let s := { s with disk := disk, haveDisk1 := found || s.haveDisk1 }
  if s.haveDisk1 then
    let s := s.serialPrintf "IDE init done!\n" []
    return { s with disk := s.disk.outb 0x1f6 (0xe0 ||| 0 <<< 4) }
  else throw (.panic "IDE failed! no fs.img in qemu")

/-- The part of `kernel_main` from `init_pic` to `init_ide`. -/
def bootDevices (fuel : Nat) (s : BootDevices) : Res BootDevices :=
  let s := { s with devices := s.devices.initPic }
  let s := initTimer 20 s
  let s := initKeyboardSystem s
  initIde fuel s

/-- The machine when it is switched on, with two disks that are always ready. -/
def resetBoot : BootDevices where
  devices := Interrupts.resetDevices
  pit := ⟨0, 0, false, none, 0⟩
  disk := ⟨fun _ => 0x50, fun _ => 0, 0, 0, 0, 0, 0, 0, []⟩
  ideLock := initLock
  haveDisk1 := false

/-! ## The rate of the timer -/

/-- The count that `init_timer` loads. -/
def timerCount (frequency : Word) : Word :=
  if 65535 < 1193180 / frequency then 65535
  else if 1193180 / frequency < 1 then 1
  else 1193180 / frequency

/-- What it warns of. -/
def timerWarning (frequency : Word) : List Output :=
  if frequency.toNat < 19 then [.serial "Warning: frequency too low, using minimum frequency\n" []]
  else if 1193180 < frequency.toNat then
    [.serial "Warning: frequency too high, using maximum frequency\n" []]
  else []

/-- The two bytes of a count, written behind the control word for both. -/
theorem writeCount_writeCount (n : Word) (p : Pit) :
    ((p.writeControl 0x36).writeCount ((n &&& 0xFF).setWidth 8)).writeCount
      ((n >>> 8 &&& 0xFF).setWidth 8) = ⟨3, 3, false, none, n.setWidth 16⟩ := by
  have hcontrol : p.writeControl 0x36 = ⟨3, 3, false, none, p.reload⟩ := rfl
  have hlow (w : Word) : ((w &&& 0xFF).setWidth 8).toNat = w.toNat % 256 := by
    have hmask : w.toNat &&& 255 = w.toNat % 256 := Nat.and_two_pow_sub_one_eq_mod w.toNat 8
    rw [BitVec.toNat_setWidth, BitVec.toNat_and]
    show (w.toNat &&& 255) % 256 = _
    rw [hmask, Nat.mod_mod]
  have hbytes : word16 ((n &&& 0xFF).setWidth 8) ((n >>> 8 &&& 0xFF).setWidth 8) = n.setWidth 16 := by
    apply BitVec.eq_of_toNat_eq
    rw [word16_toNat, hlow, hlow, BitVec.toNat_ushiftRight, BitVec.toNat_setWidth, Nat.shiftRight_eq_div_pow]
    omega
  rw [hcontrol, Pit.writeCount_low, Pit.writeCount_high, hbytes]

theorem timerCount_toNat (frequency : Word) :
    (timerCount frequency).toNat = max 1 (min 65535 (1193180 / frequency.toNat)) := by
  have hdiv : ((1193180 : Word) / frequency).toNat = 1193180 / frequency.toNat := rfl
  unfold timerCount
  by_cases hhigh : (65535 : Word) < 1193180 / frequency
  · have hhigh' : 65535 < 1193180 / frequency.toNat := hhigh
    rw [if_pos hhigh, min_eq_left hhigh'.le]
    rfl
  · have hhigh' : ¬65535 < 1193180 / frequency.toNat := hhigh
    rw [if_neg hhigh, min_eq_right (not_lt.mp hhigh')]
    by_cases hlow : (1193180 : Word) / frequency < 1
    · have hlow' : 1193180 / frequency.toNat < 1 := hlow
      rw [if_pos hlow, max_eq_left hlow'.le]
      rfl
    · have hlow' : ¬1193180 / frequency.toNat < 1 := hlow
      rw [if_neg hlow, max_eq_right (not_lt.mp hlow'), hdiv]

theorem initTimer_eq {frequency : Word} (h0 : frequency ≠ 0) (s : BootDevices) :
    initTimer frequency s = { s with
      pit := ⟨3, 3, false, none, (timerCount frequency).setWidth 16⟩
      devices := { s.devices with log := s.devices.log ++ timerWarning frequency ++
        [.serial "Timer initialized with frequency: %d Hz\n" [frequency]] } } := by
  have hdiv : ((1193180 : Word) / frequency).toNat = 1193180 / frequency.toNat := rfl
  have hpos : 0 < frequency.toNat := Nat.pos_of_ne_zero fun h => h0 (BitVec.eq_of_toNat_eq h)
  have hlow : (65535 : Word) < 1193180 / frequency ↔ frequency.toNat < 19 := by
    show 65535 < 1193180 / frequency.toNat ↔ _
    rw [Nat.lt_div_iff_mul_lt hpos]
    omega
  have hhigh : (1193180 : Word) / frequency < 1 ↔ 1193180 < frequency.toNat := by
    show 1193180 / frequency.toNat < 1 ↔ _
    rw [Nat.div_lt_iff_lt_mul hpos, Nat.one_mul]
  unfold initTimer timerCount timerWarning
  rw [if_neg h0]
  simp only [hlow, hhigh]
  split_ifs
  · simp only [BootDevices.serialPrintf, Devices.serialPrintf, writeCount_writeCount]
  · simp only [BootDevices.serialPrintf, Devices.serialPrintf, writeCount_writeCount]
  · simp only [BootDevices.serialPrintf, Devices.serialPrintf, writeCount_writeCount, List.append_nil]

/-- **The rate of the timer.** For every frequency but 0, whatever was written to the channel before, the
period is from 1 to 65535 clocks, and among these, from 2 on, the longer ones are too slow and the others are
not. Frequencies below 19 and above 1193180 are reported. For 0 the channel is left as it is. -/
theorem init_timer_rate (frequency : Word) (s : BootDevices) :
    (frequency ≠ 0 →
      ((initTimer frequency s).pit.mode = 3 ∧ (initTimer frequency s).pit.bcd = false ∧
        (initTimer frequency s).pit.low = none) ∧
      (1 ≤ (initTimer frequency s).pit.period ∧ (initTimer frequency s).pit.period ≤ 65535) ∧
      (∀ n, 2 ≤ n → n ≤ 65535 →
        (n ≤ (initTimer frequency s).pit.period ↔ n * frequency.toNat ≤ 1193180)) ∧
      (initTimer frequency s).devices.log = s.devices.log ++ timerWarning frequency ++
        [.serial "Timer initialized with frequency: %d Hz\n" [frequency]]) ∧
    (frequency = 0 → (initTimer frequency s).pit = s.pit ∧
      (initTimer frequency s).devices.log = s.devices.log ++ [.serial "frequency cannot be zero!\n" []]) := by
  constructor
  · intro h0
    have hpos : 0 < frequency.toNat := Nat.pos_of_ne_zero fun h => h0 (BitVec.eq_of_toNat_eq h)
    have hcount := timerCount_toNat frequency
    have hperiod : (initTimer frequency s).pit.period = (timerCount frequency).toNat := by
      have hword : ((timerCount frequency).setWidth 16).toNat = (timerCount frequency).toNat := by
        rw [BitVec.toNat_setWidth]
        omega
      rw [initTimer_eq h0, Pit.period]
      rw [if_neg, hword]
      intro hzero
      have hzero' := congrArg BitVec.toNat hzero
      rw [hword] at hzero'
      simp at hzero'
      omega
    rw [hperiod, hcount, initTimer_eq h0]
    refine ⟨⟨rfl, rfl, rfl⟩, by omega, fun n h2 hn => ?_, rfl⟩
    rw [← Nat.le_div_iff_mul_le hpos]
    omega
  · rintro rfl
    exact ⟨rfl, rfl⟩

/-- Twenty times a second. -/
theorem init_timer_rate_20 : (initTimer 20 resetBoot).pit.period = 59659 := by
  obtain ⟨-, -, hiff, -⟩ := (init_timer_rate 20 resetBoot).1 (by decide)
  have hlow := (hiff 59659 (by decide) (by decide)).mpr (by decide)
  have hhigh := (hiff 59660 (by decide) (by decide)).not.mpr (by decide)
  omega

/-! ## The disks -/

/-- The first read of the status that shows the disk ready. -/
def FirstReady (d : Ide.Device) (k : Nat) : Prop :=
  Ide.IsReady (d.status k) ∧ ∀ j < k, ¬Ide.IsReady (d.status j)

theorem ideWaitLoop_first : ∀ {k : Nat} {d : Ide.Device}, FirstReady d k → ∀ {fuel : Nat}, k < fuel →
    Ide.ideWaitLoop fuel d = .ok (d.status k, d.skip (k + 1)) := by
  intro k
  induction k with
  | zero =>
    rintro d ⟨hready, -⟩ (_ | fuel) hfuel
    · omega
    · simp only [Ide.ideWaitLoop, Ide.Device.inStatus, hready, not_true_eq_false, if_false]
      rfl
  | succ k ih =>
    rintro d ⟨hready, hbusy⟩ (_ | fuel) hfuel
    · omega
    · have hrest : FirstReady d.inStatus.2 k := ⟨hready, fun j hj => hbusy (j + 1) (by omega)⟩
      have hloop := ih hrest (show k < fuel by omega)
      simp only [Ide.ideWaitLoop, Ide.Device.inStatus, hbusy 0 (by omega), not_false_eq_true, if_true]
        at hloop ⊢
      rw [hloop]
      simp [Ide.Device.skip, Nat.add_assoc]

theorem ideWaitLoop_busy : ∀ {fuel : Nat} {d : Ide.Device}, (∀ k < fuel, ¬Ide.IsReady (d.status k)) →
    Ide.ideWaitLoop fuel d = .error .diverge := by
  intro fuel
  induction fuel with
  | zero => exact fun _ => rfl
  | succ fuel ih =>
    intro d hbusy
    simp only [Ide.ideWaitLoop, Ide.Device.inStatus, hbusy 0 (by omega), not_false_eq_true, if_true]
    exact ih fun k hk => hbusy (k + 1) (by omega)

/-- Whether a disk answers, and that only its status is read. -/
theorem probeLoop_found : ∀ (rounds : Nat) (d : Ide.Device),
    ((probeLoop rounds d).1 = true ↔ ∃ i < rounds, d.status i ≠ 0) ∧
      ∃ n, (probeLoop rounds d).2 = d.skip n := by
  intro rounds
  induction rounds with
  | zero => exact fun d => ⟨by simp [probeLoop], 0, rfl⟩
  | succ rounds ih =>
    intro d
    by_cases h0 : d.status 0 = 0
    · have hloop : probeLoop (rounds + 1) d = probeLoop rounds d.inStatus.2 := by
        rw [probeLoop]
        exact if_neg (not_not.mpr h0)
      obtain ⟨hfound, n, hskip⟩ := ih d.inStatus.2
      rw [hloop, hfound, hskip]
      refine ⟨⟨fun ⟨i, hi, hne⟩ => ⟨i + 1, by omega, hne⟩, fun ⟨i, hi, hne⟩ => ?_⟩, n + 1, ?_⟩
      · cases i with
        | zero => exact absurd h0 hne
        | succ i => exact ⟨i, by omega, hne⟩
      · simp [Ide.Device.inStatus, Ide.Device.skip, Nat.add_assoc]
    · have hloop : probeLoop (rounds + 1) d = (true, d.skip 1) := by
        rw [probeLoop]
        exact if_pos h0
      rw [hloop]
      exact ⟨iff_of_true rfl ⟨0, by omega, h0⟩, 1, rfl⟩

/-- The second disk is there, or answers within the thousand reads behind the one that showed the first ready. -/
def Answers (s : BootDevices) (k : Nat) : Prop :=
  s.haveDisk1 = true ∨ ∃ i < 1000, s.disk.status (k + 1 + i) ≠ 0

/-- What `init_ide` leaves. -/
structure IdeInit (s t : BootDevices) : Prop where
  found : t.haveDisk1 = true
  /-- The first disk is selected again. -/
  drive : t.disk.drive = 0xe0
  sent : t.disk.sent = s.disk.sent
  lock : t.ideLock = initLock
  pit : t.pit = s.pit
  devices : t.devices = (s.devices.call (.enable irqAta1)).serialPrintf "IDE init done!\n" []

/-- `init_ide` once the first disk is ready. -/
theorem initIde_first {s : BootDevices} {k : Nat} (hk : FirstReady s.disk k) : ∃ t, IdeInit s t ∧
    ∀ fuel, k < fuel → (Answers s k → initIde fuel s = .ok t) ∧
      (¬Answers s k → initIde fuel s = .error (.panic "IDE failed! no fs.img in qemu")) := by
  obtain ⟨hfound, n, hskip⟩ := probeLoop_found 1000 ((s.disk.skip (k + 1)).outb 0x1f6 (0xe0 ||| 1 <<< 4))
  have hanswers : Answers s k ↔ (probeLoop 1000
      ((s.disk.skip (k + 1)).outb 0x1f6 (0xe0 ||| 1 <<< 4))).1 = true ∨ s.haveDisk1 = true := by
    rw [hfound, Answers, or_comm]
    simp only [Ide.Device.outb_drive, Ide.Device.skip, Nat.add_comm, Nat.add_left_comm]
  let t : BootDevices :=
    { devices := (s.devices.call (.enable irqAta1)).serialPrintf "IDE init done!\n" []
      pit := s.pit
      disk := { s.disk.skip (n + (k + 1)) with drive := 0xe0 }
      ideLock := initLock
      haveDisk1 := true }
  refine ⟨t, ⟨rfl, rfl, rfl, rfl, rfl, rfl⟩, fun fuel hfuel => ?_⟩
  have hwait : Ide.ideWait fuel 0 s.disk = .ok (0, s.disk.skip (k + 1)) := by
    rw [Ide.ideWait, ideWaitLoop_first hk hfuel, ok_bind]
    rfl
  have hbind : ∀ f : Int × Ide.Device → Res BootDevices,
      (Ide.ideWait fuel 0 s.disk >>= f) = f (0, s.disk.skip (k + 1)) := by
    intro f
    rw [hwait]
    rfl
  have hrun : initIde fuel s = _ := hbind _
  rw [hanswers, hrun]
  simp only
  generalize probeLoop 1000 ((s.disk.skip (k + 1)).outb 0x1f6 (0xe0 ||| 1 <<< 4)) = r at hskip
  obtain ⟨found, disk⟩ := r
  simp only at hskip
  subst hskip
  constructor
  · intro hany
    have htrue : (found || s.haveDisk1) = true := by simpa using hany
    simp only [htrue, if_true]
    simp only [Ide.Device.outb_drive, Ide.Device.skip, BootDevices.serialPrintf, Nat.add_assoc]
    rfl
  · intro hnone
    have hfalse : (found || s.haveDisk1) = false := by simpa using hnone
    simp only [hfalse]
    rfl

theorem initIde_busy {s : BootDevices} {fuel : Nat} (hbusy : ∀ k < fuel, ¬Ide.IsReady (s.disk.status k)) :
    initIde fuel s = .error .diverge := by
  have hwait : Ide.ideWait fuel 0 s.disk = .error .diverge := by
    rw [Ide.ideWait, ideWaitLoop_busy hbusy]
    rfl
  have hbind : ∀ f : Int × Ide.Device → Res BootDevices,
      (Ide.ideWait fuel 0 s.disk >>= f) = .error .diverge := by
    intro f
    rw [hwait]
    rfl
  exact hbind _

theorem exists_firstReady {d : Ide.Device} {fuel : Nat} (h : ¬∀ k < fuel, ¬Ide.IsReady (d.status k)) :
    ∃ k < fuel, FirstReady d k := by
  simp only [not_forall, not_not] at h
  obtain ⟨j, hj, hready⟩ := h
  have hex : ∃ k, Ide.IsReady (d.status k) := ⟨j, hready⟩
  exact ⟨Nat.find hex, lt_of_le_of_lt (Nat.find_min' hex hready) hj, Nat.find_spec hex,
    fun j hj => Nat.find_min hex hj⟩

theorem initIde_of_ok {fuel : Nat} {s t : BootDevices} (h : initIde fuel s = .ok t) :
    (∃ k, FirstReady s.disk k ∧ Answers s k) ∧ IdeInit s t := by
  by_cases hbusy : ∀ k < fuel, ¬Ide.IsReady (s.disk.status k)
  · rw [initIde_busy hbusy] at h
    cases h
  · obtain ⟨k, hfuel, hk⟩ := exists_firstReady hbusy
    obtain ⟨t', ht, hrun⟩ := initIde_first hk
    by_cases hanswers : Answers s k
    · rw [(hrun fuel hfuel).1 hanswers] at h
      cases h
      exact ⟨⟨k, hk, hanswers⟩, ht⟩
    · rw [(hrun fuel hfuel).2 hanswers] at h
      cases h

theorem initIde_of_panic {fuel : Nat} {s : BootDevices} {msg : String}
    (h : initIde fuel s = .error (.panic msg)) : ∃ k, FirstReady s.disk k ∧ ¬Answers s k := by
  by_cases hbusy : ∀ k < fuel, ¬Ide.IsReady (s.disk.status k)
  · rw [initIde_busy hbusy] at h
    cases h
  · obtain ⟨k, hfuel, hk⟩ := exists_firstReady hbusy
    obtain ⟨t', -, hrun⟩ := initIde_first hk
    refine ⟨k, hk, fun hanswers => ?_⟩
    rw [(hrun fuel hfuel).1 hanswers] at h
    cases h

/-- **The disks at boot.** `init_ide` returns exactly if the first disk becomes ready and the second is there
or answers one of the next thousand reads. Then nothing was sent, the first disk is selected and its
line enabled. It panics exactly if the second disk does not answer, and else waits forever. -/
theorem init_ide_outcome (s : BootDevices) :
    ((∃ t, Returns (fun fuel => initIde fuel s) t) ↔ ∃ k, FirstReady s.disk k ∧ Answers s k) ∧
    (∀ t, Returns (fun fuel => initIde fuel s) t → IdeInit s t) ∧
    ((∃ n, ∀ fuel, n ≤ fuel → initIde fuel s = .error (.panic "IDE failed! no fs.img in qemu")) ↔
      ∃ k, FirstReady s.disk k ∧ ¬Answers s k) ∧
    ((∀ fuel, initIde fuel s = .error .diverge) ↔ ∀ k, ¬Ide.IsReady (s.disk.status k)) := by
  refine ⟨⟨?returned, ?returns⟩, ?state, ⟨?panicked, ?panics⟩, ?waited, ?waits⟩
  case returned =>
    rintro ⟨t, n, hn⟩
    exact (initIde_of_ok (hn n le_rfl)).1
  case returns =>
    rintro ⟨k, hk, hanswers⟩
    obtain ⟨t, -, hrun⟩ := initIde_first hk
    exact ⟨t, k + 1, fun fuel hfuel => (hrun fuel hfuel).1 hanswers⟩
  case state =>
    rintro t ⟨n, hn⟩
    exact (initIde_of_ok (hn n le_rfl)).2
  case panicked =>
    rintro ⟨n, hn⟩
    exact initIde_of_panic (hn n le_rfl)
  case panics =>
    rintro ⟨k, hk, hnone⟩
    obtain ⟨t, -, hrun⟩ := initIde_first hk
    exact ⟨k + 1, fun fuel hfuel => (hrun fuel hfuel).2 hnone⟩
  case waited =>
    intro hdiverge
    by_contra hready
    simp only [not_forall, not_not] at hready
    obtain ⟨j, hj⟩ := hready
    have hsome : ¬∀ k < j + 1, ¬Ide.IsReady (s.disk.status k) := fun hbusy => hbusy j (Nat.lt_succ_self j) hj
    obtain ⟨k, -, hk⟩ := exists_firstReady hsome
    obtain ⟨t, -, hrun⟩ := initIde_first hk
    have hend := hrun (k + 1) (Nat.lt_succ_self k)
    rw [hdiverge] at hend
    by_cases hanswers : Answers s k
    · cases hend.1 hanswers
    · cases hend.2 hanswers
  case waits => exact fun hbusy fuel => initIde_busy fun k _ => hbusy k

theorem init_ide_outcome_ready : ∃ t, Returns (fun fuel => initIde fuel resetBoot) t ∧ t.disk.drive = 0xe0 := by
  obtain ⟨hreturns, hstate, -, -⟩ := init_ide_outcome resetBoot
  have hready : FirstReady resetBoot.disk 0 := ⟨by decide, by simp⟩
  obtain ⟨t, ht⟩ := hreturns.mpr ⟨0, hready, Or.inr ⟨0, by decide, by decide⟩⟩
  exact ⟨t, ht, (hstate t ht).drive⟩

/-! ## The only interrupt -/

namespace Interrupts

/-- The controllers after the boot, and after any run in which no line is enabled. -/
structure KeyboardOnly (s : BootDevices) (as : List Act) (d : Devices) : Prop where
  pics : d.irqs.pics = runCalls [.enable irqKeyboard, .enable irqAta1] (initPic s.devices.irqs.pics)
  none : d.irqs.lines1.inService = ∅
  ticks : d.timerTicks = s.devices.timerTicks
  vectors : ∀ v, .interrupt v ∈ as → v = 33

theorem keyboardOnly_boot {fuel : Nat} {s t : BootDevices} (h : bootDevices fuel s = .ok t) :
    KeyboardOnly s [] t.devices := by
  have hide := (initIde_of_ok h).2.devices
  rw [hide]
  refine ⟨rfl, ?_, ?_, fun v hv => absurd hv List.not_mem_nil⟩
  all_goals
    rw [initTimer_eq (by decide)]
    rfl

namespace KeyboardOnly
variable {s : BootDevices} {as : List Act} {d d' : Devices}

theorem deliverable (h : KeyboardOnly s as d) (i : Line) :
    d.irqs.pics.Deliverable i ↔ i = irqKeyboard := by
  rw [h.pics, deliverable_iff]
  revert i
  decide

/-- Only level 1 of the first controller is not masked. -/
theorem level (h : KeyboardOnly s as d) {i : Level} (hi : d.irqs.masked1 i = false) : i = 1 := by
  rw [Controllers.masked1, h.pics] at hi
  rw [initPic_eq] at hi
  revert i
  decide

theorem other (h : KeyboardOnly s as d) {a : Act} (ha : ∀ v, a ≠ .interrupt v)
    (hpics : d'.irqs.pics = d.irqs.pics) (hlines : d'.irqs.lines1.inService = d.irqs.lines1.inService)
    (hticks : d'.timerTicks = d.timerTicks) : KeyboardOnly s (as ++ [a]) d' := by
  refine ⟨hpics.trans h.pics, hlines.trans h.none, hticks.trans h.ticks, fun v hv => ?_⟩
  rcases List.mem_append.mp hv with hv | hv
  · exact h.vectors v hv
  · exact absurd (List.mem_singleton.mp hv).symm (ha v)

theorem step {tables : Idt.Tables} {sys : TrapFrame → Devices → Outcome} (hr : Registered tables)
    (h : KeyboardOnly s as d) {a : Act} (ha : ∀ c, a ≠ .call c) (hstep : Step tables sys d a d') :
    KeyboardOnly s (as ++ [a]) d' := by
  cases a with
  | raise i =>
    obtain ⟨-, -, rfl⟩ := hstep
    refine h.other (by simp) ?_ ?_ rfl
    all_goals
      simp only [Devices.raise, Controllers.raise]
      split_ifs
      · rfl
      · rfl
  | key code =>
    obtain rfl : d' = d.key code := hstep
    unfold Devices.key
    cases d.keys with
    | nil => exact h.other (by simp) rfl rfl rfl
    | cons first codes => exact h.other (by simp) rfl rfl rfl
  | call c => exact absurd rfl (ha c)
  | interrupt v =>
    have hp : d.irqs.pics.Programmed := by
      rw [h.pics]
      exact runCalls_programmed (initPic_programmed _) _
    have ht := taken_of_step hr hp hstep
    have hlevel := h.level (Controllers.next1_ready ht.next).1
    obtain rfl : v = 33 := eq_of_masterLevel_one ht.vector hlevel
    obtain ⟨irqs, hpics, hlines, rfl⟩ := ht.handled
    refine ⟨?_, ?_, ?_, fun u hu => ?_⟩
    · rw [irqEffect_pics]
      exact hpics.trans h.pics
    · have hservice : ({ d with irqs := irqs } : Devices).irqs.lines1.inService =
          insert (Controllers.masterLevel 33) d.irqs.lines1.inService := by
        show irqs.lines1.inService = _
        rw [hlines]
        rfl
      rw [irqEffect_inService hservice (Controllers.next1_ready ht.next).2, if_pos (by decide), h.none]
    · rw [irqEffect_timerTicks, if_neg (by decide)]
      exact h.ticks
    · rcases List.mem_append.mp hu with hu | hu
      · exact h.vectors u hu
      · exact Act.interrupt.inj (List.mem_singleton.mp hu)

end KeyboardOnly

/-- **Only the keyboard interrupts.** Once `kernel_main` has set the devices up, no code enables or disables a
line any more. Whatever the devices do in such a run, the CPU is given no vector but the keyboard's: the timer
never ticks, the disks are never heard, and no level stays in service. -/
theorem keyboard_only (addr : Idt.Stub → Word) (idtAddr : Word) (idtr : Idt.IdtPtr)
    (sys : TrapFrame → Devices → Outcome) {fuel : Nat} {s t : BootDevices} (hboot : bootDevices fuel s = .ok t)
    {as : List Act} {d : Devices}
    (hrun : Run (Step (Idt.initIdt addr idtAddr (Idt.bss idtr)) sys) t.devices as d)
    (hcalls : ∀ c, .call c ∉ as) :
    (∀ v, .interrupt v ∈ as → v = 33) ∧ d.timerTicks = s.devices.timerTicks ∧
      d.irqs.lines1.inService = ∅ ∧ ∀ i, d.irqs.pics.Deliverable i ↔ i = irqKeyboard := by
  have hr : Registered (Idt.initIdt addr idtAddr (Idt.bss idtr)) := ⟨addr, idtAddr, idtr, rfl⟩
  have hall := hrun.invariant (I := fun as d => (∀ c, .call c ∉ as) → KeyboardOnly s as d)
    (fun _ => keyboardOnly_boot hboot) fun as a d d' h hstep hcalls =>
      (h fun c hc => hcalls c (List.mem_append_left _ hc)).step hr
        (fun c hc => hcalls c (hc ▸ List.mem_append_right _ (List.mem_singleton_self a))) hstep
  have h := hall hcalls
  exact ⟨h.vectors, h.ticks, h.none, h.deliverable⟩

/-- A key is typed while the timer and the first disk raise their lines. -/
theorem keyboard_only_key :
    let tables := Idt.initIdt (fun _ => 0) 0 (Idt.bss ⟨0, 0⟩)
    let sys : TrapFrame → Devices → Outcome := fun f d => .ok (f, d)
    ∃ t d, bootDevices 1 resetBoot = .ok t ∧
      Run (Step tables sys) t.devices [.raise 0, .raise irqAta1, .key 0x1E, .interrupt 33] d ∧
      d.timerTicks = 0 ∧ ∀ i, d.irqs.pics.Deliverable i ↔ i = irqKeyboard := by
  intro tables sys
  obtain ⟨t, hboot⟩ : ∃ t, bootDevices 1 resetBoot = .ok t := ⟨_, rfl⟩
  let d : Devices := ((t.devices.raise 0).raise irqAta1).key 0x1E
  have hirqs : d.irqs = ⟨runCalls [.enable irqKeyboard, .enable irqAta1] (initPic resetPics),
      ⟨insert 1 (insert 0 ∅), ∅⟩, ⟨insert 6 ∅, ∅⟩⟩ := by
    have hdevices := (initIde_of_ok hboot).2.devices
    simp only [d, hdevices, initTimer_eq (show (20 : Word) ≠ 0 by decide)]
    rfl
  let irqs : Controllers := { d.irqs with lines1 := d.irqs.lines1.ack 1 }
  have hack : d.irqs.ack = some (33, irqs) := by
    simp only [irqs, hirqs]
    decide
  let f : TrapFrame := { callFrame 0 X86.kernelCode.toX86 with intNo := (33 : Byte).setWidth 32 }
  have hisr : isrHandler tables sys f { d with irqs := irqs } =
      .ok (.ok (f, irqEffect 33 { d with irqs := irqs })) :=
    isrHandler_irq ⟨_, _, _, rfl⟩ (by decide) (by decide) rfl _
  have hraise : Step tables sys t.devices (.raise 0) (t.devices.raise 0) := ⟨by decide, by decide, rfl⟩
  have hraise' : Step tables sys (t.devices.raise 0) (.raise irqAta1) ((t.devices.raise 0).raise irqAta1) :=
    ⟨by decide, by decide, rfl⟩
  have hkey : Step tables sys ((t.devices.raise 0).raise irqAta1) (.key 0x1E) d := rfl
  have hint : Step tables sys d (.interrupt 33) (irqEffect 33 { d with irqs := irqs }) :=
    ⟨irqs, f, f, hack, rfl, hisr⟩
  have hrun := Run.cons hraise (Run.cons hraise' (Run.cons hkey (Run.single hint)))
  obtain ⟨-, hticks, -, hdeliver⟩ := keyboard_only (fun _ => 0) 0 ⟨0, 0⟩ sys hboot hrun (by simp)
  exact ⟨t, _, hboot, hrun, hticks, hdeliver⟩

end Interrupts

end TuixOS
