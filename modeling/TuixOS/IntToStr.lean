import TuixOS.View
import TuixOS.Serial

/-!
# `int_to_str` and `reverse_str` of `lib/string.c`

The digits and the sign are written from the last one on, and the string is then turned around in place.
`Canonical` says what a decimal numeral is. The only number without one in the buffer at the end is
`INT_MIN`, which has no negation (`int_to_str_iff`).
-/

namespace TuixOS

open Lib
open Serial (chr digit decimal negInt nextInt nextInt_of_lt digit_toNat decimal_ne_zero intMin)

/-! ## The functions -/

/-- `while (num > 0)` -/
def intDigits (buffer : Addr) : Nat → Int → Nat → View → Res (Nat × View)
  | 0, _, _, _ => .error .diverge
  | fuel + 1, num, i, v =>
    if num > 0 then do
      let v ← v.write (buffer + BitVec.ofNat 32 i) (BitVec.ofInt 8 (0x30 + num.tmod 10))
      let i ← nextInt i
      intDigits buffer fuel (num.tdiv 10) i v
    else .ok (i, v)

/-- `if (is_negative) buffer[i++] = '-';` -/
def intSign (isNegative : Bool) (buffer : Addr) (i : Nat) (v : View) : Res (Nat × View) :=
  if isNegative then do
    let v ← v.write (buffer + BitVec.ofNat 32 i) (chr '-')
    let i ← nextInt i
    return (i, v)
  else .ok (i, v)

/-- `while (str[len] != '\0') len++;` -/
def strLen (str : Addr) (v : View) : Nat → Nat → Res Nat
  | 0, _ => .error .diverge
  | fuel + 1, len => do
    let c ← v.read (str + BitVec.ofNat 32 len)
    if c ≠ 0 then
      let len ← nextInt len
      strLen str v fuel len
    else return len

/-- `for (int i = 0; i < len / 2; i++)`, with the rounds that are left. -/
def reverseLoop (str : Addr) (len : Nat) : Nat → Nat → View → Res View
  | 0, _, v => .ok v
  | rounds + 1, i, v => do
    let temp ← v.read (str + BitVec.ofNat 32 i)
    let c ← v.read (str + BitVec.ofNat 32 (len - 1 - i))
    let v ← v.write (str + BitVec.ofNat 32 i) c
    let v ← v.write (str + BitVec.ofNat 32 (len - 1 - i)) temp
    reverseLoop str len rounds (i + 1) v

def reverseStr (fuel : Nat) (str : Addr) (v : View) : Res View := do
  let len ← strLen str v fuel 0
  reverseLoop str len (len / 2) 0 v

def intToStr (fuel : Nat) (num : Int) (buffer : Addr) (v : View) : Res View :=
  if num = 0 then do
    let v ← v.write buffer (chr '0')
    v.write (buffer + 1) 0
  else do
    let isNegative : Bool := num < 0
    let num ← if isNegative then negInt num else .ok num
    let (i, v) ← intDigits buffer fuel num 0 v
    let (i, v) ← intSign isNegative buffer i v
    let v ← v.write (buffer + BitVec.ofNat 32 i) 0
    reverseStr fuel buffer v

/-! ## Turning a string around -/

section Reverse
variable {v : View} {a : Addr} {s : List Byte} {n i : Nat}

theorem strLen_returns (hs : v.Str (a + BitVec.ofNat 32 i) s) (hfit : ((i + s.length : Nat) : Int) ≤ intMax) :
    Returns (fun fuel => strLen a v fuel i) (i + s.length) := by
  induction s generalizing i with
  | nil =>
    refine Returns.succ (.of_forall fun fuel => ?_)
    simp only [strLen, hs.read_nil, ok_bind, ne_eq, not_true_eq_false, if_false]
    rfl
  | cons c s ih =>
    have hc := hs.ne_zero
    have hnext : nextInt i = .ok (i + 1) := nextInt_of_lt (by rw [List.length_cons] at hfit; omega)
    have htail : v.Str (a + BitVec.ofNat 32 (i + 1)) s := by
      rw [← add_ofNat_succ]
      exact hs.tail
    have hlen : i + (c :: s).length = i + 1 + s.length := by
      rw [List.length_cons]
      omega
    rw [hlen] at hfit ⊢
    refine Returns.succ ?_
    simp only [strLen, hs.read_cons, hnext, ok_bind, ne_eq, hc, not_false_eq_true, if_true]
    exact ih htail hfit

/-- The first and the last `i` of the `n` bytes have changed places. -/
structure Reversing (v v' : View) (a : Addr) (n i : Nat) : Prop where
  inside : v'.inside = v.inside
  bytes : ∀ k < n, v'.mem (a + BitVec.ofNat 32 k) =
    v.mem (a + BitVec.ofNat 32 (if k < i ∨ n ≤ k + i then n - 1 - k else k))
  frame : ∀ x, n ≤ (x - a).toNat → v'.mem x = v.mem x

theorem Reversing.refl (v : View) (a : Addr) (n : Nat) : Reversing v v a n 0 where
  inside := rfl
  bytes k hk := by rw [if_neg (by omega)]
  frame _ _ := rfl

/-- What two writes leave at an address among `n`. -/
theorem store8_store8 (m : Mem) (a : Addr) {n i j k : Nat} (hn : n ≤ 2 ^ 32) (hi : i < n) (hj : j < n)
    (hk : k < n) (b c : Byte) :
    store8 (store8 m (a + BitVec.ofNat 32 i) b) (a + BitVec.ofNat 32 j) c (a + BitVec.ofNat 32 k) =
      if k = j then c else if k = i then b else m (a + BitVec.ofNat 32 k) := by
  split_ifs with hkj hki
  · rw [hkj, store8_same]
  · rw [store8_ne _ _ _ _ (add_ofNat_ne a (by omega) (by omega) hkj), hki, store8_same]
  · rw [store8_ne _ _ _ _ (add_ofNat_ne a (by omega) (by omega) hkj),
      store8_ne _ _ _ _ (add_ofNat_ne a (by omega) (by omega) hki)]

theorem Reversing.step {v' : View} (rounds : Nat) (h : Reversing v v' a n i) (hin : v.Holds a n)
    (hi : i < n / 2) (hn : n ≤ 2 ^ 32) :
    ∃ v'', reverseLoop a n (rounds + 1) i v' = reverseLoop a n rounds (i + 1) v'' ∧
      Reversing v v'' a n (i + 1) := by
  have hin' : v'.Holds a n := by
    unfold View.Holds
    rw [h.inside]
    exact hin
  have hfirst := hin' i (by omega)
  have hlast := hin' (n - 1 - i) (by omega)
  refine ⟨⟨store8 (store8 v'.mem (a + BitVec.ofNat 32 i) (v'.mem (a + BitVec.ofNat 32 (n - 1 - i))))
    (a + BitVec.ofNat 32 (n - 1 - i)) (v'.mem (a + BitVec.ofNat 32 i)), v'.inside⟩, ?_, h.inside,
    fun k hk => ?_, fun x hx => ?_⟩
  · rw [reverseLoop, View.read_of_inside hfirst, View.read_of_inside hlast]
    simp only [ok_bind, View.write, hfirst, hlast, if_true]
  · simp only [store8_store8 v'.mem a hn (show i < n by omega) (show n - 1 - i < n by omega) hk]
    rw [h.bytes i (by omega), h.bytes (n - 1 - i) (by omega), h.bytes k hk]
    by_cases hkl : k = n - 1 - i
    · rw [if_pos hkl, if_neg (by omega), if_pos (by omega), hkl]
      congr 3
      omega
    by_cases hki : k = i
    · rw [if_neg hkl, if_pos hki, if_neg (by omega), if_pos (by omega), hki]
    · rw [if_neg hkl, if_neg hki]
      congr 3
      split_ifs <;> omega
  · have hne : ∀ k < n, x ≠ a + BitVec.ofNat 32 k := by
      rintro k hk rfl
      rw [BitVec.add_comm, BitVec.add_sub_cancel, BitVec.toNat_ofNat, Nat.mod_eq_of_lt (by omega)] at hx
      omega
    exact (store8_ne _ _ _ _ (hne _ (by omega))).trans
      ((store8_ne _ _ _ _ (hne _ (by omega))).trans (h.frame x hx))

theorem reverseLoop_returns {v' : View} (rounds : Nat) (h : Reversing v v' a n i) (hin : v.Holds a n)
    (hi : i + rounds = n / 2) (hn : n ≤ 2 ^ 32) :
    ∃ v'', reverseLoop a n rounds i v' = .ok v'' ∧ Reversing v v'' a n (n / 2) := by
  induction rounds generalizing i v' with
  | zero =>
    rw [Nat.add_zero] at hi
    rw [← hi]
    exact ⟨v', rfl, h⟩
  | succ rounds ih =>
    obtain ⟨v₁, hstep, hrev⟩ := h.step rounds hin (by omega) hn
    rw [hstep]
    exact ih hrev (by omega)

/-- With half of the bytes in the place of the other half, all of them are turned around. -/
theorem Reversing.wrote {v' : View} (h : Reversing v v' a n (n / 2)) :
    View.Wrote v v' a (bytesAt v.mem a n).reverse where
  inside := h.inside
  bytes := by
    rw [List.length_reverse, length_bytesAt]
    refine List.ext_getElem (by simp) fun k hk hk' => ?_
    rw [length_bytesAt] at hk
    rw [List.getElem_reverse, getElem_bytesAt, getElem_bytesAt, h.bytes k hk, length_bytesAt]
    congr 3
    split_ifs <;> omega
  frame x hx := by
    rw [List.length_reverse, length_bytesAt] at hx
    exact h.frame x hx

theorem reverseStr_returns (hs : v.Str a s) (hfit : (s.length : Int) ≤ intMax) :
    ∃ v', Returns (fun fuel => reverseStr fuel a v) v' ∧ View.Wrote v v' a s.reverse := by
  have hin : v.Holds a s.length := hs.holds.mono (Nat.le_succ _)
  have hlen : Returns (fun fuel => strLen a v fuel 0) s.length := by
    have hlen := strLen_returns (i := 0) (by rwa [add_ofNat_zero]) (by rwa [Nat.zero_add])
    rwa [Nat.zero_add] at hlen
  obtain ⟨v', hloop, hrev⟩ := reverseLoop_returns (s.length / 2) (Reversing.refl v a s.length) hin
    (Nat.zero_add _) (by simp only [intMax] at hfit; omega)
  refine ⟨v', hlen.bind (.of_ok hloop), ?_⟩
  have hbytes : bytesAt v.mem a s.length = s := by
    rw [hs.str.bytesAt (Nat.le_succ _), List.take_left]
  have hwrote := hrev.wrote
  rwa [hbytes] at hwrote

end Reverse

/-! ## Numerals -/

/-- The digits of a text, read behind the number `n`. -/
def readDigits : List Byte → Nat → Option Nat
  | [], n => some n
  | c :: t, n =>
    if 0x30 ≤ c.toNat ∧ c.toNat ≤ 0x39 then readDigits t (10 * n + (c.toNat - 0x30)) else none

/-- The number that a decimal numeral stands for. -/
def readInt : List Byte → Option Int
  | [] => none
  | c :: t =>
    if c = chr '-' then (readDigits t 0).map fun n => -(n : Int)
    else (readDigits (c :: t) 0).map fun n => (n : Int)

/-- `t` is the decimal numeral of `n`: a sign for a negative number, and digits, with a 0 in front only
for the number 0. -/
structure Canonical (n : Int) (t : List Byte) : Prop where
  sign : t.head? = some (chr '-') ↔ n < 0
  digits : ∃ ds : List Nat, t = (if n < 0 then [chr '-'] else []) ++ ds.map digit ∧ ds ≠ [] ∧
    (∀ d ∈ ds, d < 10) ∧ (ds.head? = some 0 → ds = [0])
  value : readInt t = some n

theorem digit_ne_minus {d : Nat} (h : d < 10) : digit d ≠ chr '-' := by
  have hall : ∀ d < 10, digit d ≠ chr '-' := by decide
  exact hall d h

theorem readDigits_map {ds : List Nat} (hds : ∀ d ∈ ds, d < 10) (n : Nat) :
    readDigits (ds.map digit) n = some (ds.foldl (fun m d => 10 * m + d) n) := by
  induction ds generalizing n with
  | nil => rfl
  | cons d ds ih =>
    have hd := digit_toNat (hds d List.mem_cons_self)
    have hlt := hds d List.mem_cons_self
    rw [List.map_cons, readDigits, if_pos (by omega), ih fun d hd => hds d (List.mem_cons_of_mem _ hd),
      hd, Nat.add_sub_cancel_left, List.foldl_cons]

theorem readDigits_numeral (n : Nat) : readDigits ((numeral 10 n).map digit) 0 = some n := by
  rw [readDigits_map (fun d hd => lt_of_mem_numeral (by omega) hd), foldl_numeral]

/-- `decimal` writes the numeral that `Canonical` describes. -/
theorem canonical_decimal (n : Int) : Canonical n (decimal n) := by
  have hlt : ∀ d ∈ numeral 10 n.natAbs, d < 10 := fun d hd => lt_of_mem_numeral (by omega) hd
  obtain ⟨d, ds, hcons⟩ := List.exists_cons_of_ne_nil (numeral_ne_nil 10 n.natAbs)
  have hd : digit d ≠ chr '-' := digit_ne_minus (hlt d (by rw [hcons]; exact List.mem_cons_self))
  have hvalue := readDigits_numeral n.natAbs
  refine ⟨?sign, ⟨numeral 10 n.natAbs, rfl, numeral_ne_nil 10 _, hlt, ?zero⟩, ?value⟩
  case sign =>
    unfold decimal
    by_cases hneg : n < 0
    · rw [if_pos hneg]
      exact iff_of_true rfl hneg
    · rw [if_neg hneg, hcons]
      exact iff_of_false (fun h => hd (Option.some.inj h)) hneg
  case zero =>
    intro hhead
    rcases Nat.eq_zero_or_pos n.natAbs with h0 | hpos
    · rw [h0, numeral_zero]
    · exact absurd hhead (head_numeral_ne_zero hpos)
  case value =>
    unfold decimal
    by_cases hneg : n < 0
    · have habs : -(n.natAbs : Int) = n := by omega
      rw [if_pos hneg, List.singleton_append, readInt, if_pos rfl, hvalue]
      exact congrArg some habs
    · have habs : (n.natAbs : Int) = n := by omega
      rw [if_neg hneg, List.nil_append]
      rw [hcons, List.map_cons] at hvalue ⊢
      rw [readInt, if_neg hd, hvalue]
      exact congrArg some habs

/-- The numeral of an `int` has no more than eleven characters. -/
theorem length_decimal_le {n : Int} (hlow : intMin ≤ n) (hhigh : n ≤ intMax) :
    (decimal n).length ≤ 11 := by
  have hlt : n.natAbs < 10 ^ 10 := by
    simp only [intMin, intMax] at hlow hhigh
    omega
  have hlen := length_numeral_le (b := 10) (k := 10) (by omega) (by omega) hlt
  rw [decimal, List.length_append, List.length_map]
  split_ifs
  · rw [List.length_singleton]
    omega
  · rw [List.length_nil]
    omega

/-! ## The result -/

section Result
variable {v v₀ : View} {a buffer : Addr} {num : Int}

/-- The loop writes the digits behind one another, the last one first. -/
theorem intDigits_returns : ∀ (n : Nat) (done : List Byte) (v : View), View.Wrote v₀ v a done →
    v₀.Holds a (done.length + (Nat.digits 10 n).length) → done.length + (Nat.digits 10 n).length ≤ 31 →
    ∃ v', Returns (fun fuel => intDigits a fuel n done.length v)
      (done.length + (Nat.digits 10 n).length, v') ∧
      View.Wrote v₀ v' a (done ++ (Nat.digits 10 n).map digit) := by
  intro n
  induction n using Nat.strong_induction_on with
  | _ n ih =>
    intro done v hdone hin hfit
    rcases Nat.eq_zero_or_pos n with rfl | hn
    · have hnot : ¬((0 : Nat) : Int) > 0 := by omega
      rw [Nat.digits_zero, List.map_nil, List.append_nil]
      exact ⟨v, Returns.succ (.of_forall fun _ => if_neg hnot), hdone⟩
    · rw [Nat.digits_def' (by omega) hn] at hin hfit ⊢
      rw [List.length_cons] at hin hfit ⊢
      have hnext := hin done.length (by omega)
      obtain ⟨v₁, hwrite, hwrote⟩ := hdone.write hnext (by omega) (digit (n % 10))
      have hlen : (done ++ [digit (n % 10)]).length = done.length + 1 := by
        rw [List.length_append, List.length_singleton]
      have hcount : done.length + ((Nat.digits 10 (n / 10)).length + 1) =
          (done ++ [digit (n % 10)]).length + (Nat.digits 10 (n / 10)).length := by
        rw [hlen]
        omega
      rw [hcount] at hin hfit ⊢
      obtain ⟨v', hret, hwrote'⟩ := ih (n / 10) (by omega) _ v₁ hwrote hin hfit
      refine ⟨v', Returns.succ ?_, by simpa using hwrote'⟩
      have hstep : ∀ fuel, intDigits a (fuel + 1) n done.length v =
          intDigits a fuel (n / 10 : Nat) (done ++ [digit (n % 10)]).length v₁ := by
        intro fuel
        have hpos : (n : Int) > 0 := by omega
        have hquot : (n : Int).tdiv 10 = ((n / 10 : Nat) : Int) := rfl
        have hsmall : (done.length : Int) < intMax := by
          unfold intMax
          omega
        have hnext : nextInt done.length = .ok (done.length + 1) := nextInt_of_lt hsmall
        rw [intDigits, if_pos hpos, Serial.lastDigit_eq, hquot, hwrite, hlen, ok_bind, hnext, ok_bind]
      simp only [hstep]
      exact hret

/-- In front of the reversal the buffer has the numeral from its end, and a NUL. -/
theorem decimal_reverse (hzero : num ≠ 0) : (decimal num).reverse =
    (Nat.digits 10 num.natAbs).map digit ++ if num < 0 then [chr '-'] else [] := by
  have hpos : 0 < num.natAbs := Int.natAbs_pos.mpr hzero
  rw [decimal, numeral_of_pos hpos, List.reverse_append, List.map_reverse, List.reverse_reverse]
  split_ifs <;> rfl

theorem intToStr_zero (hin : v.Holds buffer 2) :
    ∃ v', (∀ fuel, intToStr fuel 0 buffer v = .ok v') ∧ View.Wrote v v' buffer [chr '0', 0] := by
  obtain ⟨v₁, hwrite, hwrote⟩ := View.write_wrote (c := chr '0') hin.first
  have hsecond : v.inside (buffer + BitVec.ofNat 32 [chr '0'].length) = true := hin 1 (by omega)
  obtain ⟨v', hwrite', hwrote'⟩ := hwrote.write hsecond (by simp) 0
  refine ⟨v', fun fuel => ?_, hwrote'⟩
  rw [intToStr, if_pos rfl, hwrite, ok_bind]
  exact hwrite'

/-- The sign behind the digits. -/
theorem intSign_returns {v' : View} {xs : List Byte} (hxs : View.Wrote v v' buffer xs)
    (hin : v.Holds buffer (xs.length + 1)) (hfit : xs.length ≤ 31) (neg : Bool) :
    ∃ v'', intSign neg buffer xs.length v' =
      .ok ((xs ++ if neg then [chr '-'] else []).length, v'') ∧
      View.Wrote v v'' buffer (xs ++ if neg then [chr '-'] else []) := by
  cases neg with
  | false => exact ⟨v', by simp [intSign], by simpa using hxs⟩
  | true =>
    have hsmall : (xs.length : Int) < intMax := by
      unfold intMax
      omega
    obtain ⟨v'', hwrite, hwrote⟩ := hxs.write (hin xs.length (by omega)) (by omega) (chr '-')
    refine ⟨v'', ?_, hwrote⟩
    rw [intSign, if_pos rfl, hwrite, ok_bind, nextInt_of_lt hsmall, ok_bind, if_pos rfl,
      List.length_append]
    rfl

theorem intToStr_eq (hzero : num ≠ 0) (hlow : num ≠ intMin) (fuel : Nat) :
    intToStr fuel num buffer v = intDigits buffer fuel num.natAbs 0 v >>= fun p =>
      intSign (decide (num < 0)) buffer p.1 p.2 >>= fun p =>
        p.2.write (buffer + BitVec.ofNat 32 p.1) 0 >>= reverseStr fuel buffer := by
  rw [intToStr, if_neg hzero]
  by_cases hneg : num < 0
  · have habs : -num = num.natAbs := by omega
    simp only [hneg, decide_true, if_true, negInt, if_neg hlow, ← habs]
    rfl
  · have habs : num = num.natAbs := by omega
    simp only [hneg, decide_false, Bool.false_eq_true, if_false, ← habs]
    rfl

/-- Any other number that has a negation leaves its numeral. -/
theorem intToStr_returns (hzero : num ≠ 0) (hlow : intMin < num) (hhigh : num ≤ intMax)
    (hin : v.Holds buffer ((decimal num).length + 1)) :
    ∃ v', Returns (fun fuel => intToStr fuel num buffer v) v' ∧
      View.Wrote v v' buffer (decimal num ++ [0]) := by
  have hlen := length_decimal_le (le_of_lt hlow) hhigh
  have hrev := decimal_reverse hzero
  have hrevlen := congrArg List.length hrev
  rw [List.length_reverse, List.length_append, List.length_map] at hrevlen
  obtain ⟨v₁, hdigits, hwrote₁⟩ := intDigits_returns num.natAbs [] v (View.Wrote.refl v buffer)
    (hin.mono (by rw [List.length_nil]; omega)) (by rw [List.length_nil]; omega)
  rw [List.nil_append] at hwrote₁
  rw [List.length_nil, Nat.zero_add] at hdigits
  obtain ⟨v₂, hsign, hwrote₂⟩ := intSign_returns hwrote₁
    (hin.mono (by rw [List.length_map]; omega)) (by rw [List.length_map]; omega) (decide (num < 0))
  simp only [decide_eq_true_eq, ← hrev, List.length_map, List.length_reverse] at hsign hwrote₂
  obtain ⟨v₃, hnul, hwrote₃⟩ := hwrote₂.write (hin _ (by rw [List.length_reverse]; omega))
    (by rw [List.length_reverse]; omega) 0
  have hstr : v₃.Str buffer (decimal num).reverse := by
    refine hwrote₃.str (fun c hc => decimal_ne_zero (List.mem_reverse.mp hc)) ?_
    rwa [List.length_reverse]
  have hfit : ((decimal num).reverse.length : Int) ≤ intMax := by
    rw [List.length_reverse]
    unfold intMax
    omega
  obtain ⟨v₄, hreverse, hwrote₄⟩ := reverseStr_returns hstr hfit
  rw [List.reverse_reverse] at hwrote₄
  refine ⟨v₄, ?_, hwrote₃.overwrite hwrote₄ (by rw [List.length_reverse]) (by simp; omega)⟩
  simp only [intToStr_eq hzero (Int.ne_of_gt hlow)]
  refine hdigits.bind ?_
  rw [List.length_reverse] at hnul
  simp only [hsign, hnul, ok_bind]
  exact hreverse

/-- `INT_MIN` has no negation. -/
theorem intToStr_overflow (fuel : Nat) : intToStr fuel intMin buffer v = .error .overflow := by
  have hzero : intMin ≠ 0 := by decide
  have hneg : intMin < 0 := by decide
  simp only [intToStr, if_neg hzero, hneg, decide_true, if_true, negInt]
  rfl

end Result

/-- **`int_to_str`.** For every `int` and every view of the bytes of its numeral and a NUL, of which there
are no more than twelve: `int_to_str` returns, with the canonical numeral and the NUL in the buffer and
nothing else written, if and only if the number is not `INT_MIN`. -/
theorem int_to_str_iff {num : Word} {v : View} {buffer : Addr}
    (hin : v.Holds buffer ((decimal num.toInt).length + 1)) :
    (∃ v' t, Returns (fun fuel => intToStr fuel num.toInt buffer v) v' ∧ Canonical num.toInt t ∧
      t.length + 1 ≤ 12 ∧ v'.Str buffer t ∧ View.Wrote v v' buffer (t ++ [0])) ↔
    num.toInt ≠ intMin := by
  constructor
  · rintro ⟨v', t, ⟨n, hn⟩, -⟩ hmin
    have hrun := hn n (le_refl n)
    simp only [hmin, intToStr_overflow] at hrun
    cases hrun
  · intro hmin
    obtain ⟨hlow, hhigh⟩ := Serial.toInt_bounds hmin
    have hresult : ∃ v', Returns (fun fuel => intToStr fuel num.toInt buffer v) v' ∧
        View.Wrote v v' buffer (decimal num.toInt ++ [0]) := by
      by_cases hzero : num.toInt = 0
      · rw [hzero] at hin ⊢
        obtain ⟨v', hret, hwrote⟩ := intToStr_zero hin
        exact ⟨v', .of_forall hret, hwrote⟩
      · exact intToStr_returns hzero hlow hhigh hin
    obtain ⟨v', hret, hwrote⟩ := hresult
    have hlen := length_decimal_le (le_of_lt hlow) hhigh
    exact ⟨v', decimal num.toInt, hret, canonical_decimal _, by omega,
      hwrote.str (fun c hc => decimal_ne_zero hc) hin, hwrote⟩

/-- Twelve bytes at 0x1000. -/
def twelveBytes : View := View.texts (List.replicate 11 0x20) []

theorem int_to_str_iff_seven : ∃ v' t,
    Returns (fun fuel => intToStr fuel (BitVec.ofInt 32 (-7)).toInt 0x1000 twelveBytes) v' ∧
      Canonical (-7) t ∧ t.length + 1 ≤ 12 ∧ v'.Str 0x1000 t ∧
      View.Wrote twelveBytes v' 0x1000 (t ++ [0]) := by
  have hin : twelveBytes.Holds 0x1000 ((decimal (BitVec.ofInt 32 (-7)).toInt).length + 1) := by decide
  exact (int_to_str_iff hin).mpr (by decide)

/-- `int_to_str(INT_MIN, buffer)` -/
theorem int_to_str_min : ¬∃ v' t,
    Returns (fun fuel => intToStr fuel (0x80000000 : Word).toInt 0x1000 twelveBytes) v' ∧
      Canonical (0x80000000 : Word).toInt t ∧ v'.Str 0x1000 t := by
  rintro ⟨v', t, ⟨n, hn⟩, -⟩
  have hmin : (0x80000000 : Word).toInt = intMin := by decide
  have hrun := hn n (le_refl n)
  simp only [hmin, intToStr_overflow] at hrun
  cases hrun

end TuixOS
