import TuixOS.Pic
import TuixOS.Lib.Arbiter

/-!
# Interrupts in service: `send_eoi` of `kernel/drivers/pic.c`

The two 8259A of `TuixOS.Pic` with what they keep of the lines: the requests, and the levels in service. A
level is in service from the acknowledgement of the CPU to an end of interrupt. `init_pic` asks for the mode in
which an end of interrupt is a command (`0x20`), for requests by an edge, and for fixed priorities.
-/

namespace TuixOS

open Lib

/-- `IR0` to `IR7` of a controller. -/
abbrev Level := Fin 8

/-- The level of the first controller that the second one is on. -/
def cascadeLevel : Level := 2

structure Controllers where
  pics : Pics
  lines1 : Arbiter 8
  lines2 : Arbiter 8
  deriving DecidableEq

namespace Controllers

/-- A byte on a command port. ICW1 clears the requests and what is in service. -/
def command (value : BitVec 8) (lines : Arbiter 8) : Arbiter 8 :=
  if value.getLsbD 4 then ⟨∅, ∅⟩
  else if value = 0x20 then lines.eoi
  else lines

def outb (port : BitVec 16) (value : BitVec 8) (s : Controllers) : Controllers where
  pics := TuixOS.outb port value s.pics
  lines1 := if port = pic1Cmd then command value s.lines1 else s.lines1
  lines2 := if port = pic2Cmd then command value s.lines2 else s.lines2

def masked1 (s : Controllers) (i : Level) : Bool := s.pics.pic1.mask.getLsbD i
def masked2 (s : Controllers) (i : Level) : Bool := s.pics.pic2.mask.getLsbD i

/-- The level of the second controller that the CPU would be given. -/
def next2 (s : Controllers) : Option Level := s.lines2.next s.masked2

/-- The first controller with the output of the second on its level. -/
def wired (s : Controllers) : Arbiter 8 :=
  if s.next2.isSome then s.lines1.request cascadeLevel else s.lines1

def next1 (s : Controllers) : Option Level := s.wired.next s.masked1

/-- The vector of a level: ICW2 with its low three bits replaced. -/
def vector (icw2 : BitVec 8) (i : Level) : BitVec 8 := (icw2 &&& 0xF8) ||| BitVec.ofNat 8 i

/-- The CPU acknowledges: the vector that it is given, and the levels in service. -/
def ack (s : Controllers) : Option (BitVec 8 × Controllers) :=
  match s.next1 with
  | none => none
  | some i =>
    if i = cascadeLevel then
      s.next2.map fun j =>
        (vector s.pics.pic2.icw2 j, { s with lines1 := s.lines1.ack i, lines2 := s.lines2.ack j })
    else some (vector s.pics.pic1.icw2 i, { s with lines1 := s.lines1.ack i })

/-- A device raises its line. -/
def raise (i : Line) (s : Controllers) : Controllers :=
  if h : i.val < 8 then { s with lines1 := s.lines1.request ⟨i, h⟩ }
  else { s with lines2 := s.lines2.request ⟨i - 8, by omega⟩ }

end Controllers

/-- `init_pic` on the controllers as they are. -/
def Controllers.initPic (s : Controllers) : Controllers :=
  let s := s.outb pic1Cmd 0x11
  let s := s.outb pic2Cmd 0x11
  let s := s.outb pic1Data 0x20
  let s := s.outb pic2Data 0x28
  let s := s.outb pic1Data 0x04
  let s := s.outb pic2Data 0x02
  let s := s.outb pic1Data 0x01
  let s := s.outb pic2Data 0x01
  let s := s.outb pic1Data 0xFF
  s.outb pic2Data 0xFF

def sendEoi (irq : BitVec 8) (s : Controllers) : Controllers :=
  let s := if 8 ≤ irq then s.outb pic2Cmd 0x20 else s
  s.outb pic1Cmd 0x20

namespace Controllers
variable {s s' : Controllers} {v : BitVec 8} {i : Level}

theorem initPic_eq (s : Controllers) : s.initPic = ⟨TuixOS.initPic s.pics, ⟨∅, ∅⟩, ⟨∅, ∅⟩⟩ := rfl

/-- The handlers pass the number of the vector, which is never below 8: both controllers get a command. -/
theorem sendEoi_eq {irq : BitVec 8} (h : 8 ≤ irq) (s : Controllers) :
    sendEoi irq s = { s with lines1 := s.lines1.eoi, lines2 := s.lines2.eoi } := by
  rw [sendEoi, if_pos h]
  rfl

theorem vector_programmed (h : s.pics.Programmed) (i : Level) :
    vector s.pics.pic1.icw2 i = BitVec.ofNat 8 (0x20 + i) ∧
      vector s.pics.pic2.icw2 i = BitVec.ofNat 8 (0x28 + i) := by
  rw [h.vectors.1, h.vectors.2]
  revert i
  decide

/-- The level of the first controller that a vector comes through. -/
def masterLevel (v : BitVec 8) : Level :=
  if v.toNat < 0x28 then ⟨v.toNat % 8, Nat.mod_lt _ (by decide)⟩ else cascadeLevel

/-- What an acknowledgement does to the first controller. -/
theorem ack_cases (h : s.pics.Programmed) (hack : s.ack = some (v, s')) :
    s.next1 = some (masterLevel v) ∧ s'.pics = s.pics ∧ s'.lines1 = s.lines1.ack (masterLevel v) ∧
      (v.toNat < 0x28 ∧ v.toNat = 0x20 + (masterLevel v).val ∧ s'.lines2 = s.lines2 ∨
        ∃ j, s.next2 = some j ∧ v.toNat = 0x28 + j.val ∧ s'.lines2 = s.lines2.ack j) := by
  unfold ack at hack
  cases hnext : s.next1 with
  | none => simp [hnext] at hack
  | some i =>
    simp only [hnext] at hack
    split_ifs at hack with hi
    · rw [Option.map_eq_some_iff] at hack
      obtain ⟨j, hj, heq⟩ := hack
      rw [(vector_programmed h j).2] at heq
      cases heq
      have hv : (BitVec.ofNat 8 (0x28 + j)).toNat = 0x28 + j := by
        rw [BitVec.toNat_ofNat, Nat.mod_eq_of_lt (by omega)]
      have hlevel : masterLevel (BitVec.ofNat 8 (0x28 + j)) = i := by
        simp only [masterLevel, hv, if_neg (show ¬0x28 + j.val < 0x28 by omega), hi]
      rw [hlevel]
      exact ⟨rfl, rfl, rfl, Or.inr ⟨j, hj, hv, rfl⟩⟩
    · rw [(vector_programmed h i).1] at hack
      cases hack
      have hv : (BitVec.ofNat 8 (0x20 + i)).toNat = 0x20 + i := by
        rw [BitVec.toNat_ofNat, Nat.mod_eq_of_lt (by omega)]
      have hlevel : masterLevel (BitVec.ofNat 8 (0x20 + i)) = i := by
        simp only [masterLevel, hv, if_pos (show 0x20 + i.val < 0x28 by omega), Fin.ext_iff]
        omega
      rw [hlevel]
      exact ⟨rfl, rfl, rfl, Or.inl ⟨by omega, hv, rfl⟩⟩

/-- A level of the first controller's own. -/
theorem ack_first (h : s.next1 = some i) (hi : i ≠ cascadeLevel) :
    s.ack = some (vector s.pics.pic1.icw2 i, { s with lines1 := s.lines1.ack i }) := by
  unfold ack
  rw [h]
  exact if_neg hi

/-- A level that is given to the CPU is requested, not masked, and before all that are in service. -/
theorem next1_ready (h : s.next1 = some i) : s.masked1 i = false ∧ ∀ j ≤ i, j ∉ s.lines1.inService := by
  obtain ⟨⟨-, hmask, hfree⟩, -⟩ := Arbiter.next_eq_some_iff.mp h
  refine ⟨hmask, fun j hj => ?_⟩
  have hwired : s.wired.inService = s.lines1.inService := by
    unfold wired
    split_ifs
    · rfl
    · rfl
  rw [← hwired]
  exact hfree j hj

end Controllers

end TuixOS
