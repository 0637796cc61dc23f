import Mathlib.Data.Nat.Digits.Lemmas

/-!
# Numerals

`numeral b n` is the list of digits of `n` to the base `b`, the most significant digit first and without
leading zeros; 0 has one digit. `fixedDigits b k n` is the list of the last `k` digits, leading zeros
included: without these it is the numeral (`dropWhile_fixedDigits`).
-/

namespace Lib

variable {b k n : Nat}

def numeral (b n : Nat) : List Nat := if n = 0 then [0] else (Nat.digits b n).reverse

def fixedDigits (b : Nat) : Nat → Nat → List Nat
  | 0, _ => []
  | k + 1, n => fixedDigits b k (n / b) ++ [n % b]

@[simp] theorem numeral_zero (b : Nat) : numeral b 0 = [0] := if_pos rfl

theorem numeral_of_pos (h : 0 < n) : numeral b n = (Nat.digits b n).reverse :=
  if_neg (Nat.ne_of_gt h)

theorem numeral_ne_nil (b n : Nat) : numeral b n ≠ [] := by
  unfold numeral
  split_ifs with h
  · exact List.cons_ne_nil _ _
  · rw [ne_eq, List.reverse_eq_nil_iff]
    exact Nat.digits_ne_nil_iff_ne_zero.mpr h

theorem lt_of_mem_numeral {d : Nat} (hb : 1 < b) (hd : d ∈ numeral b n) : d < b := by
  unfold numeral at hd
  split_ifs at hd with h
  · rw [List.mem_singleton] at hd
    omega
  · exact Nat.digits_lt_base hb (List.mem_reverse.mp hd)

/-- There are no leading zeros. -/
theorem head_numeral_ne_zero (hn : 0 < n) : (numeral b n).head? ≠ some 0 := by
  have hne : Nat.digits b n ≠ [] := Nat.digits_ne_nil_iff_ne_zero.mpr (Nat.ne_of_gt hn)
  rw [numeral_of_pos hn, List.head?_reverse, List.getLast?_eq_some_getLast hne]
  exact fun h => Nat.getLast_digit_ne_zero b (Nat.ne_of_gt hn) (Option.some.inj h)

theorem length_numeral_le (hb : 1 < b) (hk : 0 < k) (h : n < b ^ k) : (numeral b n).length ≤ k := by
  unfold numeral
  split_ifs
  · exact hk
  · rw [List.length_reverse]
    exact (Nat.digits_length_le_iff hb n).mpr h

/-- The value of a numeral, digit by digit from the left. -/
theorem foldl_numeral (b n : Nat) : (numeral b n).foldl (fun m d => b * m + d) 0 = n := by
  unfold numeral
  split_ifs with h
  · rw [h]
    rfl
  · have hvalue := Nat.ofDigits_digits b n
    rw [Nat.ofDigits_eq_foldr] at hvalue
    rw [List.foldl_reverse]
    refine Eq.trans ?_ hvalue
    congr 1
    funext d m
    exact Nat.add_comm _ _

theorem fixedDigits_eq_map (b k n : Nat) :
    fixedDigits b k n = (List.range k).reverse.map fun i => n / b ^ i % b := by
  induction k generalizing n with
  | zero => rfl
  | succ k ih =>
    rw [fixedDigits, ih, List.range_succ_eq_map, List.reverse_cons, List.map_append,
      ← List.map_reverse, List.map_map, List.map_singleton, Nat.pow_zero, Nat.div_one]
    congr 1
    refine List.map_congr_left fun i _ => ?_
    rw [Function.comp_apply, Nat.div_div_eq_div_mul, Nat.pow_succ']

theorem fixedDigits_zero (b k : Nat) : fixedDigits b k 0 = List.replicate k 0 := by
  induction k with
  | zero => rfl
  | succ k ih => rw [fixedDigits, Nat.zero_div, Nat.zero_mod, ih, List.replicate_succ']

@[simp] theorem length_fixedDigits (b k n : Nat) : (fixedDigits b k n).length = k := by
  induction k generalizing n with
  | zero => rfl
  | succ k ih => rw [fixedDigits, List.length_append, ih, List.length_singleton]

/-- Leading zeros dropped, `k` digits are enough for a number below `b ^ k`. -/
theorem dropWhile_fixedDigits (hb : 1 < b) (hn : 0 < n) (h : n < b ^ k) :
    (fixedDigits b k n).dropWhile (· == 0) = numeral b n := by
  induction k generalizing n with
  | zero =>
    rw [Nat.pow_zero] at h
    omega
  | succ k ih =>
    rw [numeral_of_pos hn, Nat.digits_def' hb hn, List.reverse_cons, fixedDigits]
    rcases Nat.eq_zero_or_pos (n / b) with hq | hq
    · have hlt : n < b := (Nat.div_eq_zero_iff_lt (Nat.zero_lt_of_lt hb)).mp hq
      have hdigit : n % b ≠ 0 := by
        rw [Nat.mod_eq_of_lt hlt]
        omega
      rw [hq, fixedDigits_zero, List.dropWhile_append_of_pos, Nat.digits_zero]
      · simp [hdigit]
      · intro d hd
        exact beq_iff_eq.mpr (List.eq_of_mem_replicate hd)
    · have hdiv : n / b < b ^ k := Nat.div_lt_of_lt_mul (by rwa [← Nat.pow_succ'])
      have hrest := ih hq hdiv
      rw [numeral_of_pos hq] at hrest
      have hne : (fixedDigits b k (n / b)).dropWhile (· == 0) ≠ [] := by
        rw [hrest, ← numeral_of_pos hq]
        exact numeral_ne_nil b _
      rw [List.dropWhile_append, if_neg (by simpa using hne), hrest]

end Lib
