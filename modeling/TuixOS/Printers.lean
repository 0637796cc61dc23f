import TuixOS.Screen

/-!
# Decimals on the screen and on the serial port

`serial_print_int` writes a sign in front of the digits of a negative number. The loop of `kprintf` runs
while the number is positive, and writes nothing for a negative one.
-/

namespace TuixOS

open Lib
open Serial (chr decimal intMin EventuallyReady)
open Screen (Formatter kprintfBody)

/-- A `%d` of `kprintf` adds `t` to a buffer that does not fill up, for the argument `num`. -/
def ScreenDecimal (num : Word) (t : List Byte) : Prop :=
  ∀ (m : Mem) (fmt : Addr) (i : Nat) (s : Formatter), m (fmt + BitVec.ofNat 32 i) = chr '%' →
    m (fmt + BitVec.ofNat 32 (i + 1)) = chr 'd' → load32 m s.args = num → (i : Int) < intMax →
    s.pos ≤ 127 → ∃ s', kprintfBody m fmt i s = .ok (i + 1, s') ∧
      (s'.pos < 127 → s'.buffer = s.buffer ++ t)

/-- A `%d` of `serial_printf` sends `t`, for the argument `num`. -/
def SerialDecimal (num : Word) (t : List Byte) : Prop :=
  ∀ (m : Mem) (s : Serial.Printf), load32 m s.args = num → EventuallyReady s.uart →
    ∃ s', Returns (fun fuel => Serial.conversion m fuel (chr 'd') s) s' ∧
      s'.uart.sent = s.uart.sent ++ t

section Decimal
variable {num : Word} {m : Mem} {a : Addr}

theorem argsAt_singleton (h : load32 m a = num) : Serial.ArgsAt m a [num] := by
  intro i hi
  obtain rfl : i = 0 := by
    rw [List.length_singleton] at hi
    omega
  rw [Nat.mul_zero, BitVec.add_zero, h]
  rfl

/-- What `kprintf` adds is what its format stands for. -/
theorem screenDecimal (num : Word) :
    ScreenDecimal num (if num.toInt < 0 then [] else decimal num.toInt) := by
  intro m fmt i s hpercent hd harg hi hpos
  obtain ⟨s', hbody, hadded⟩ := Screen.kprintfBody_conversion hpercent hd rfl (.dec num)
    (argsAt_singleton harg) hpos hi
  refine ⟨s', hbody, fun hroom => ?_⟩
  have hlen : (s.buffer ++ if num.toInt < 0 then [] else decimal num.toInt).length ≤ 127 := by
    rw [Formatter.pos, hadded.buffer, List.length_take] at hroom
    omega
  rw [hadded.buffer, List.take_of_length_le hlen]

theorem serialDecimal (hnum : num.toInt ≠ intMin) : SerialDecimal num (decimal num.toInt) := by
  intro m s harg hu
  have hgives : Serial.Gives m (Serial.conversionOf (chr 'd')) [num] (decimal num.toInt) := .dec num
  obtain ⟨s', hret, hwrote⟩ := Serial.conversion_returns hgives (argsAt_singleton harg) hu
    fun _ w hw => by rwa [List.mem_singleton.mp hw]
  exact ⟨s', hret, hwrote.sent⟩

/-- A format of one `%d`, at 0x1000, and its argument, at 0x2004. -/
def decimalMem (num : Word) : Mem := store32 (Serial.callMem (chr 'd')) 0x2004 num

theorem load32_decimalMem (num : Word) : load32 (decimalMem num) 0x2004 = num := load32_store32 _ _ _

/-- `kprintf` adds nothing for a negative number. -/
theorem ScreenDecimal.eq_nil {t : List Byte} (h : ScreenDecimal num t) (hneg : num.toInt < 0) :
    t = [] := by
  have harg := load32_decimalMem num
  have hpercent : decimalMem num (0x1000 + BitVec.ofNat 32 0) = chr '%' :=
    store32_outside _ _ _ _ (by decide)
  have hd : decimalMem num (0x1000 + BitVec.ofNat 32 1) = chr 'd' :=
    store32_outside _ _ _ _ (by decide)
  obtain ⟨s, hbody, hadded⟩ := Screen.kprintfBody_conversion (s := ⟨[], 0x2004, []⟩) hpercent hd rfl
    (.dec num) (argsAt_singleton harg) (by decide) (by decide)
  obtain ⟨s', hbody', hs'⟩ := h _ 0x1000 0 ⟨[], 0x2004, []⟩ hpercent hd harg (by decide) (by decide)
  obtain ⟨-, rfl⟩ := Prod.mk.inj (Except.ok.inj (hbody.symm.trans hbody'))
  have hbuffer : s.buffer = [] := by
    rw [hadded.buffer, if_pos hneg]
    rfl
  have hadd := hs' (by rw [Formatter.pos, hbuffer]; decide)
  rw [hbuffer] at hadd
  exact hadd.symm

/-- `serial_printf` sends the numeral, or has no behaviour. -/
theorem SerialDecimal.eq_decimal {t : List Byte} (h : SerialDecimal num t) : t = decimal num.toInt := by
  have harg := load32_decimalMem num
  obtain ⟨s, hret, hsent⟩ := h _ ⟨Serial.readyUart, 0x2004, []⟩ harg Serial.eventuallyReady_readyUart
  by_cases hmin : num.toInt = intMin
  · have hdec : Serial.conversionOf (chr 'd') = .dec := by decide
    have hgives : Serial.Gives (decimalMem num) (Serial.conversionOf (chr 'd')) [num]
        (decimal num.toInt) := by
      rw [hdec]
      exact .dec num
    obtain ⟨n, hn⟩ := hret
    have hover := Serial.conversion_overflow (s := ⟨Serial.readyUart, 0x2004, []⟩) hgives
      (argsAt_singleton harg) hdec (List.mem_singleton.mpr rfl) hmin n
    exact absurd (hover.symm.trans (hn n (le_refl n))) (by simp)
  · obtain ⟨s', hret', hsent'⟩ := serialDecimal hmin _ ⟨Serial.readyUart, 0x2004, []⟩ harg
      Serial.eventuallyReady_readyUart
    obtain rfl := hret.unique hret'
    exact List.append_cancel_left (hsent.symm.trans hsent')

/-- A negative number is where they part. -/
theorem decimal_apart {t : List Byte} (hneg : num.toInt < 0) (hscreen : ScreenDecimal num t)
    (hserial : SerialDecimal num t) : False := by
  have hnil := hscreen.eq_nil hneg
  rw [hserial.eq_decimal, Serial.decimal, if_pos hneg] at hnil
  cases hnil

end Decimal

/-- **Decimals.** The characters that `kprintf` adds for a `%d` and those that `serial_printf` sends for it
are the same if and only if the number is not negative. -/
theorem printers_agree_iff (num : Word) :
    (∃ t, ScreenDecimal num t ∧ SerialDecimal num t) ↔ 0 ≤ num.toInt := by
  constructor
  · rintro ⟨t, hscreen, hserial⟩
    by_contra hneg
    exact decimal_apart (Int.not_le.mp hneg) hscreen hserial
  · intro hnonneg
    have hmin : num.toInt ≠ intMin := by
      unfold Serial.intMin intMax
      omega
    have hscreen := screenDecimal num
    rw [if_neg (Int.not_lt.mpr hnonneg)] at hscreen
    exact ⟨decimal num.toInt, hscreen, serialDecimal hmin⟩

/-- -5 is "-5" on the serial port only. -/
theorem printers_apart : ¬∃ t, ScreenDecimal (BitVec.ofInt 32 (-5)) t ∧
    SerialDecimal (BitVec.ofInt 32 (-5)) t := by
  rintro ⟨t, hscreen, hserial⟩
  exact decimal_apart (by decide) hscreen hserial

end TuixOS
