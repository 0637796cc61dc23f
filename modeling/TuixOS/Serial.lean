import TuixOS.Mmu
import TuixOS.Spinlock
import TuixOS.Lib.CStr
import TuixOS.Lib.Fuel
import TuixOS.Lib.Numeral
import Mathlib.Data.List.TakeWhile

/-!
# The serial port: `kernel/drivers/serial.c`

The port is what its driver sees of it: what the line status answers, and the characters it has been
sent. A piece of code `Prints` a text when it returns, on a port that keeps becoming ready, with the
text sent; the rules follow the code. The conversions of `serial_printf` print numerals, which the
code produces digit by digit from either end (`serialPrintInt_prints`, `serialPrintHex_prints`).
-/

namespace TuixOS

open Lib

namespace Serial

def chr (c : Char) : Byte := BitVec.ofNat 8 c.toNat

/-! ## The port -/

structure Uart where
  /-- What the reads of the line status answer, from the next on. -/
  status : Nat → Byte
  sent : List Byte

namespace Uart

/-- `inb(0x3F8 + 5)` -/
def lineStatus (u : Uart) : Byte × Uart :=
  (u.status 0, { u with status := fun n => u.status (n + 1) })

/-- `outb(0x3F8, c)` -/
def send (c : Byte) (u : Uart) : Uart := { u with sent := u.sent ++ [c] }

end Uart

/-- `while ((inb(0x3F8 + 5) & 0x20) == 0);` -/
def txWait : Nat → Uart → Res Uart
  | 0, _ => .error .diverge
  | fuel + 1, u =>
    let (r, u) := u.lineStatus
    if r &&& 0x20 = 0 then txWait fuel u else .ok u

def serialPutchar (fuel : Nat) (c : Byte) (u : Uart) : Res Uart := do
  let u ← txWait fuel u
  return u.send c

/-- The characters of a local array, in the order in which its loop sends them. -/
def serialPutAll (fuel : Nat) : List Byte → Uart → Res Uart
  | [], u => .ok u
  | c :: cs, u => do
    let u ← serialPutchar fuel c u
    serialPutAll fuel cs u

/-- `while (*str) serial_putchar(*str++);` -/
def serialPutString (m : Mem) : Nat → Addr → Uart → Res Uart
  | 0, _, _ => .error .diverge
  | fuel + 1, str, u =>
    if m str ≠ 0 then do
      let u ← serialPutchar fuel (m str) u
      serialPutString m fuel (str + 1) u
    else .ok u

/-! ## Numbers -/

/-- `(digit < 10) ? ('0' + digit) : ('a' + digit - 10)` -/
def digitChar (digit : Int) : Byte :=
  BitVec.ofInt 8 (if digit < 10 then 0x30 + digit else 0x61 + digit - 10)

/-- `*ptr++ = c;`, with the characters of `char buffer[32]` up to `ptr`. -/
def push (c : Byte) (buffer : List Byte) : Res (List Byte) :=
  if buffer.length < 32 then .ok (buffer ++ [c]) else .error .fault

def digitsLoop (base : Int) : Nat → Int → List Byte → Res (List Byte)
  | 0, _, _ => .error .diverge
  | fuel + 1, num, buffer =>
    if num > 0 then do
      let digit := num.tmod base
      let buffer ← push (digitChar digit) buffer
      digitsLoop base fuel (num.tdiv base) buffer
    else .ok buffer

def intMin : Int := -intMax - 1

/-- `-num`, for an `int`. -/
def negInt (num : Int) : Res Int := if num = intMin then .error .overflow else .ok (-num)

/-- `i++`, for an `int` that counts up from 0. -/
def nextInt (i : Nat) : Res Nat := if (i : Int) < intMax then .ok (i + 1) else .error .overflow

def serialPrintInt (fuel : Nat) (num base : Int) (u : Uart) : Res Uart :=
  if num = 0 then serialPutchar fuel (chr '0') u
  else do
    let isNegative : Bool := num < 0 ∧ base = 10
    let num ← if isNegative then negInt num else .ok num
    let buffer ← digitsLoop base fuel num []
    let buffer ← if isNegative then push (chr '-') buffer else .ok buffer
    serialPutAll fuel buffer.reverse u

/-- `while (start < 7 && buffer[start] == '0') start++;`, with `7 - start` rounds left. -/
def skipZeros (buffer : List Byte) : Nat → Nat → Nat
  | 0, start => start
  | rounds + 1, start =>
    if buffer[start]? = some (chr '0') then skipZeros buffer rounds (start + 1) else start

/-- `buffer`, filled from the highest digit on. -/
def hexBuffer (num : Word) : List Byte :=
  (List.range 8).reverse.map fun i => digitChar ((num >>> (i * 4)) &&& 0xf).toNat

def serialPrintHex (fuel : Nat) (num : Word) (u : Uart) : Res Uart := do
  let u ← serialPutchar fuel (chr '0') u
  let u ← serialPutchar fuel (chr 'x') u
  if num = 0 then serialPutchar fuel (chr '0') u
  else
    let buffer := hexBuffer num
    let start := skipZeros buffer 7 0
    serialPutAll fuel (buffer.drop start) u

theorem nextInt_of_lt {i : Nat} (h : (i : Int) < intMax) : nextInt i = .ok (i + 1) := by
  rw [nextInt, if_pos h]

/-! ## Printing a text -/

/-- However often it is asked, the port becomes ready for a character again. -/
def EventuallyReady (u : Uart) : Prop := ∀ n, ∃ k, n ≤ k ∧ u.status k &&& 0x20 ≠ 0

theorem EventuallyReady.lineStatus {u : Uart} (h : EventuallyReady u) :
    EventuallyReady u.lineStatus.2 := by
  intro n
  obtain ⟨k, hk, hready⟩ := h (n + 1)
  refine ⟨k - 1, by omega, ?_⟩
  have hpred : k - 1 + 1 = k := by omega
  simpa only [Uart.lineStatus, hpred] using hready

/-- With enough fuel the code returns, with the text sent. -/
def Prints (f : Nat → Uart → Res Uart) (t : List Byte) : Prop :=
  ∀ u, EventuallyReady u → ∃ u', Returns (fun fuel => f fuel u) u' ∧ u'.sent = u.sent ++ t ∧
    EventuallyReady u'

namespace Prints
variable {f g : Nat → Uart → Res Uart} {s t : List Byte}

theorem nil : Prints (fun _ u => .ok u) [] := by
  intro u hu
  exact ⟨u, .of_ok rfl, (List.append_nil _).symm, hu⟩

theorem bind (hf : Prints f s) (hg : Prints g t) :
    Prints (fun fuel u => f fuel u >>= g fuel) (s ++ t) := by
  intro u hu
  obtain ⟨u₁, hret, hsent, hu₁⟩ := hf u hu
  obtain ⟨u₂, hret', hsent', hu₂⟩ := hg u₁ hu₁
  refine ⟨u₂, hret.bind hret', ?_, hu₂⟩
  rw [hsent', hsent, List.append_assoc]

theorem succ (h : Prints (fun fuel => f (fuel + 1)) t) : Prints f t := by
  intro u hu
  obtain ⟨u', hret, hsent, hu'⟩ := h u hu
  exact ⟨u', hret.succ, hsent, hu'⟩

end Prints

theorem txWait_returns : ∀ (k : Nat) (u : Uart), EventuallyReady u → u.status k &&& 0x20 ≠ 0 →
    ∃ u', Returns (fun fuel => txWait fuel u) u' ∧ u'.sent = u.sent ∧ EventuallyReady u' := by
  intro k
  induction k with
  | zero =>
    intro u hu hready
    exact ⟨u.lineStatus.2, Returns.succ (.of_forall fun _ => if_neg hready), rfl, hu.lineStatus⟩
  | succ k ih =>
    intro u hu hready
    by_cases h0 : u.status 0 &&& 0x20 = 0
    · obtain ⟨u', hret, hsent, hu'⟩ := ih u.lineStatus.2 hu.lineStatus hready
      refine ⟨u', Returns.succ ?_, hsent, hu'⟩
      have hstep : ∀ fuel, txWait (fuel + 1) u = txWait fuel u.lineStatus.2 := fun _ => if_pos h0
      simp only [hstep]
      exact hret
    · exact ⟨u.lineStatus.2, Returns.succ (.of_forall fun _ => if_neg h0), rfl, hu.lineStatus⟩

theorem serialPutchar_prints (c : Byte) : Prints (fun fuel => serialPutchar fuel c) [c] := by
  intro u hu
  obtain ⟨k, -, hready⟩ := hu 0
  obtain ⟨u', hret, hsent, hu'⟩ := txWait_returns k u hu hready
  refine ⟨u'.send c, hret.bind (.of_ok rfl), ?_, hu'⟩
  rw [Uart.send, hsent]

theorem serialPutAll_prints : ∀ cs : List Byte, Prints (fun fuel => serialPutAll fuel cs) cs
  | [] => Prints.nil
  | c :: cs => (serialPutchar_prints c).bind (serialPutAll_prints cs)

theorem serialPutString_prints {m : Mem} : ∀ {str : Addr} {s : List Byte}, StrAt m str s →
    Prints (fun fuel => serialPutString m fuel str) s
  | str, [], h => by
    have hnul : m str = 0 := h
    refine Prints.succ ?_
    simp only [serialPutString, hnul, ne_eq, not_true_eq_false, if_false]
    exact Prints.nil
  | str, c :: s, h => by
    obtain ⟨hc, hfirst, hrest⟩ := h
    refine Prints.succ ?_
    simp only [serialPutString, hfirst, ne_eq, hc, not_false_eq_true, if_true]
    exact (serialPutchar_prints c).bind (serialPutString_prints hrest)

/-! ## Numerals -/

theorem toInt_bounds {w : Word} (hne : w.toInt ≠ intMin) : intMin < w.toInt ∧ w.toInt ≤ intMax := by
  have hlow := w.le_toInt
  have hhigh := w.toInt_lt
  simp only [intMin, intMax] at hne ⊢
  omega

/-- The character of a digit. -/
def digit (d : Nat) : Byte := chr (Nat.digitChar d)

/-- A number in decimal. -/
def decimal (num : Int) : List Byte :=
  (if num < 0 then [chr '-'] else []) ++ (numeral 10 num.natAbs).map digit

/-- A number in hexadecimal, with its prefix. -/
def hexadecimal (num : Nat) : List Byte := chr '0' :: chr 'x' :: (numeral 16 num).map digit

theorem digitChar_eq {d : Nat} (h : d < 16) : digitChar d = digit d := by
  have hall : ∀ d < 16, digitChar (d : Nat) = digit d := by decide
  exact hall d h

/-- The character of the last digit, as a loop of divisions by 10 finds it. -/
theorem lastDigit_eq (n : Nat) : BitVec.ofInt 8 (0x30 + (n : Int).tmod 10) = digit (n % 10) := by
  have hall : ∀ d < 10, BitVec.ofInt 8 (0x30 + ((d : Nat) : Int)) = digit d := by decide
  exact hall (n % 10) (Nat.mod_lt n (by omega))

theorem digit_toNat {d : Nat} (h : d < 10) : (digit d).toNat = 0x30 + d := by
  have hall : ∀ d < 10, (digit d).toNat = 0x30 + d := by decide
  exact hall d h

theorem digit_eq_zero_iff (d : Nat) : digit d = chr '0' ↔ d = 0 := by
  by_cases hd : d < 16
  · have hall : ∀ d < 16, digit d = chr '0' ↔ d = 0 := by decide
    exact hall d hd
  · have hstar : Nat.digitChar d = '*' := Nat.digitChar_eq_star.mpr (Nat.not_lt.mp hd)
    rw [digit, hstar]
    exact iff_of_false (by decide) (by omega)

theorem decimal_ne_zero {n : Int} {c : Byte} (hc : c ∈ decimal n) : c ≠ 0 := by
  unfold decimal at hc
  rcases List.mem_append.mp hc with hsign | hdigit
  · split_ifs at hsign
    · rw [List.mem_singleton.mp hsign]
      decide
    · cases hsign
  · obtain ⟨d, hd, rfl⟩ := List.mem_map.mp hdigit
    have htoNat := digit_toNat (lt_of_mem_numeral (by omega) hd)
    intro h0
    rw [h0] at htoNat
    have hzero : (0 : Byte).toNat = 0 := rfl
    omega

/-- The loop puts the digits behind one another, the last one first. -/
theorem digitsLoop_returns : ∀ (n : Nat) (buffer : List Byte),
    buffer.length + (Nat.digits 10 n).length ≤ 32 →
    Returns (fun fuel => digitsLoop 10 fuel n buffer) (buffer ++ (Nat.digits 10 n).map digit) := by
  intro n
  induction n using Nat.strong_induction_on with
  | _ n ih =>
    intro buffer hroom
    rcases Nat.eq_zero_or_pos n with rfl | hn
    · have hnot : ¬((0 : Nat) : Int) > 0 := by omega
      rw [Nat.digits_zero, List.map_nil, List.append_nil]
      exact Returns.succ (.of_forall fun _ => if_neg hnot)
    · rw [Nat.digits_def' (by omega) hn] at hroom ⊢
      simp only [List.length_cons] at hroom
      have hstep : ∀ fuel, digitsLoop 10 (fuel + 1) n buffer =
          digitsLoop 10 fuel (n / 10 : Nat) (buffer ++ [digit (n % 10)]) := by
        intro fuel
        have hpos : (n : Int) > 0 := by omega
        have hdigit : ((n : Int).tmod 10) = ((n % 10 : Nat) : Int) := rfl
        have hquot : ((n : Int).tdiv 10) = ((n / 10 : Nat) : Int) := rfl
        have hpush : push (digit (n % 10)) buffer = .ok (buffer ++ [digit (n % 10)]) :=
          if_pos (by omega)
        have hlast : digitChar ((n : Int).tmod 10) = digit (n % 10) := by
          rw [hdigit]
          exact digitChar_eq (by omega)
        rw [digitsLoop, if_pos hpos, hquot]
        simp only [hlast, hpush]
        rfl
      refine Returns.succ ?_
      simp only [hstep]
      have hrest := ih (n / 10) (by omega) (buffer ++ [digit (n % 10)])
        (by rw [List.length_append, List.length_singleton]; omega)
      rwa [List.append_assoc] at hrest

/-- A number other than 0 is printed by the loop, its sign, and the reversal. -/
theorem serialPrintInt_eq {num : Int} (hzero : num ≠ 0) (hlow : num ≠ intMin) (fuel : Nat) (u : Uart) :
    serialPrintInt fuel num 10 u = digitsLoop 10 fuel num.natAbs [] >>= fun buffer =>
      (if num < 0 then push (chr '-') buffer else .ok buffer) >>= fun buffer =>
        serialPutAll fuel buffer.reverse u := by
  rw [serialPrintInt, if_neg hzero]
  by_cases hneg : num < 0
  · have habs : -num = num.natAbs := by omega
    simp only [hneg, and_self, decide_true, if_true, negInt, if_neg hlow, ← habs]
    rfl
  · have habs : num = num.natAbs := by omega
    simp only [hneg, false_and, decide_false, Bool.false_eq_true, if_false, ← habs]
    rfl

theorem serialPrintInt_prints {num : Int} (hlow : intMin < num) (hhigh : num ≤ intMax) :
    Prints (fun fuel => serialPrintInt fuel num 10) (decimal num) := by
  by_cases hzero : num = 0
  · have hrun : ∀ fuel u, serialPrintInt fuel num 10 u = serialPutchar fuel (chr '0') u :=
      fun _ _ => if_pos hzero
    have htext : decimal num = [chr '0'] := by
      rw [hzero]
      decide
    intro u hu
    simp only [hrun, htext]
    exact serialPutchar_prints (chr '0') u hu
  · have hpos : 0 < num.natAbs := Int.natAbs_pos.mpr hzero
    have hlt : num.natAbs < 10 ^ 31 := by
      simp only [intMin, intMax] at hlow hhigh
      omega
    have hlen : (Nat.digits 10 num.natAbs).length ≤ 31 :=
      (Nat.digits_length_le_iff (by omega) _).mpr hlt
    have hloop := digitsLoop_returns num.natAbs [] (by rw [List.length_nil]; omega)
    rw [List.nil_append] at hloop
    have hsign : (if num < 0 then push (chr '-') ((Nat.digits 10 num.natAbs).map digit)
        else .ok ((Nat.digits 10 num.natAbs).map digit)) = .ok (decimal num).reverse := by
      rw [decimal, numeral_of_pos hpos, List.reverse_append, List.map_reverse, List.reverse_reverse]
      by_cases hneg : num < 0
      · rw [if_pos hneg, if_pos hneg, push, List.length_map, if_pos (by omega)]
        rfl
      · rw [if_neg hneg, if_neg hneg, List.reverse_nil, List.append_nil]
    intro u hu
    obtain ⟨u', hret, hsent, hu'⟩ := serialPutAll_prints (decimal num) u hu
    refine ⟨u', ?_, hsent, hu'⟩
    simp only [serialPrintInt_eq hzero (Int.ne_of_gt hlow)]
    refine hloop.bind ?_
    simp only [hsign]
    simpa only [bind, Except.bind, List.reverse_reverse] using hret

theorem drop_skipZeros {buffer : List Byte} : ∀ (rounds start : Nat),
    (buffer.drop start).length = rounds + 1 → (∃ c ∈ buffer.drop start, c ≠ chr '0') →
    buffer.drop (skipZeros buffer rounds start) = (buffer.drop start).dropWhile (· == chr '0') := by
  intro rounds
  induction rounds with
  | zero =>
    intro start hlen ⟨c, hc, hne⟩
    obtain ⟨d, hd⟩ := List.length_eq_one_iff.mp hlen
    rw [hd, List.mem_singleton] at hc
    subst hc
    rw [skipZeros, hd]
    simp [hne]
  | succ rounds ih =>
    intro start hlen ⟨c, hc, hne⟩
    have hstart : start < buffer.length := by
      rw [List.length_drop] at hlen
      omega
    rw [List.drop_eq_getElem_cons hstart] at hc ⊢
    rw [skipZeros, List.getElem?_eq_getElem hstart]
    by_cases hfirst : buffer[start] = chr '0'
    · rw [if_pos (by rw [hfirst]), List.dropWhile_cons, hfirst]
      refine (ih (start + 1) (by rw [List.length_drop] at hlen ⊢; omega) ⟨c, ?_, hne⟩).trans (by simp)
      exact (List.mem_cons.mp hc).resolve_left fun heq => hne (heq.trans hfirst)
    · rw [if_neg fun heq => hfirst (Option.some.inj heq), List.dropWhile_cons_of_neg (by simp [hfirst]),
        List.drop_eq_getElem_cons hstart]

/-- A hexadecimal digit. -/
theorem nibble_toNat (num : Word) (i : Nat) :
    ((num >>> (i * 4)) &&& 0xF).toNat = num.toNat / 16 ^ i % 16 := by
  have hmask := Nat.and_two_pow_sub_one_eq_mod (num.toNat / 16 ^ i) 4
  rw [BitVec.toNat_and, BitVec.toNat_ushiftRight, Nat.shiftRight_eq_div_pow, Nat.mul_comm,
    Nat.pow_mul]
  exact hmask

theorem hexBuffer_eq (num : Word) : hexBuffer num = (fixedDigits 16 8 num.toNat).map digit := by
  rw [hexBuffer, fixedDigits_eq_map, List.map_map]
  refine List.map_congr_left fun i _ => ?_
  rw [nibble_toNat, digitChar_eq (Nat.mod_lt _ (by omega))]
  rfl

/-- Behind its leading zeros the buffer has the numeral. -/
theorem drop_hexBuffer {num : Word} (hnum : num ≠ 0) :
    (hexBuffer num).drop (skipZeros (hexBuffer num) 7 0) = (numeral 16 num.toNat).map digit := by
  have hpos : 0 < num.toNat := by bv_omega
  have hnumeral := dropWhile_fixedDigits (b := 16) (by omega) hpos (show num.toNat < 16 ^ 8 by omega)
  have hzero : (fun d => digit d == chr '0') = fun d => d == 0 := by
    funext d
    rw [Bool.eq_iff_iff, beq_iff_eq, beq_iff_eq, digit_eq_zero_iff]
  have hdrop : (hexBuffer num).dropWhile (· == chr '0') = (numeral 16 num.toNat).map digit := by
    rw [hexBuffer_eq, List.dropWhile_map, ← hnumeral, ← hzero]
    rfl
  have hlen : ((hexBuffer num).drop 0).length = 7 + 1 := by simp [hexBuffer]
  have hnonzero : ∃ c ∈ (hexBuffer num).drop 0, c ≠ chr '0' := by
    by_contra hall
    push Not at hall
    have hnil : (hexBuffer num).dropWhile (· == chr '0') = [] :=
      List.dropWhile_eq_nil_iff.mpr fun c hc => beq_iff_eq.mpr (hall c hc)
    exact numeral_ne_nil 16 num.toNat (List.map_eq_nil_iff.mp (hdrop.symm.trans hnil))
  rw [drop_skipZeros 7 0 hlen hnonzero, List.drop_zero, hdrop]

theorem serialPrintHex_prints (num : Word) :
    Prints (fun fuel => serialPrintHex fuel num) (hexadecimal num.toNat) := by
  have hzero := serialPutchar_prints (chr '0')
  have hx := serialPutchar_prints (chr 'x')
  refine hzero.bind (t := chr 'x' :: (numeral 16 num.toNat).map digit) (hx.bind ?_)
  by_cases hnum : num = 0
  · simp only [hnum, if_true]
    exact hzero
  · simp only [hnum, if_false]
    rw [← drop_hexBuffer hnum]
    exact serialPutAll_prints _

end Serial

end TuixOS
