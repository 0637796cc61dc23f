import TuixOS.View
import TuixOS.Lib.Fuel
import TuixOS.Lib.Lexicographic

/-!
# `strcmp`, `strncmp` and `memcmp` of `lib/string.c`

Each loop stops where the two sides part, or at the end of what it may look at, and the bytes there give
the order of the whole (`compare_headD`). The sign of a result `r` is `compare r 0`, and the order of two
lists of bytes, as unsigned numbers, is `compare s t`.
-/

namespace TuixOS

open Lib

/-- `while (*s1 != '\0' && *s1 == *s2)` -/
def strcmpLoop (v : View) : Nat → Addr → Addr → Res (Addr × Addr)
  | 0, _, _ => .error .diverge
  | fuel + 1, s1, s2 => do
    let c ← v.read s1
    if c ≠ 0 then
      let d ← v.read s2
      if c = d then strcmpLoop v fuel (s1 + 1) (s2 + 1) else return (s1, s2)
    else return (s1, s2)

/-- `*(uint8_t*)s1 - *(uint8_t*)s2` -/
def byteDiff (v : View) (s1 s2 : Addr) : Res Int := do
  let c ← v.read s1
  let d ← v.read s2
  return (c.toNat : Int) - d.toNat

def strcmp (v : View) (fuel : Nat) (s1 s2 : Addr) : Res Int := do
  let (s1, s2) ← strcmpLoop v fuel s1 s2
  byteDiff v s1 s2

/-- `while (n > 1 && *s1 != '\0' && *s1 == *s2)` -/
def strncmpLoop (v : View) : Nat → Addr → Addr → Res (Addr × Addr)
  | n + 2, s1, s2 => do
    let c ← v.read s1
    if c ≠ 0 then
      let d ← v.read s2
      if c = d then strncmpLoop v (n + 1) (s1 + 1) (s2 + 1) else return (s1, s2)
    else return (s1, s2)
  | _, s1, s2 => .ok (s1, s2)

def strncmp (v : View) (s1 s2 : Addr) (n : Word) : Res Int :=
  if n = 0 then .ok 0
  else do
    let (s1, s2) ← strncmpLoop v n.toNat s1 s2
    byteDiff v s1 s2

/-- `while (count-- > 0)` -/
def memcmpLoop (v : View) : Nat → Addr → Addr → Res Int
  | 0, _, _ => .ok 0
  | count + 1, p1, p2 => do
    let c ← v.read p1
    let d ← v.read p2
    if c ≠ d then return if c < d then -1 else 1
    else memcmpLoop v count (p1 + 1) (p2 + 1)

def memcmp (v : View) (ptr1 ptr2 : Addr) (count : Word) : Res Int :=
  if ptr1 = 0 ∨ ptr2 = 0 then .ok (-1)
  else if count = 0 then .ok 0
  else memcmpLoop v count.toNat ptr1 ptr2

/-! ## Where the loops stop -/

theorem compare_of_lt {c d : Byte} (h : c < d) : compare c d = .lt := if_pos h

theorem compare_zero_of_ne {c : Byte} (h : c ≠ 0) : compare 0 c = .lt :=
  compare_of_lt (by bv_omega)

/-- The sign of a difference of two bytes. -/
theorem compare_sub_zero (c d : Byte) : compare ((c.toNat : Int) - d.toNat) 0 = compare c d := by
  rcases Nat.lt_trichotomy c.toNat d.toNat with h | h | h
  · rw [Int.compare_eq_lt.mpr (by omega), compare_of_lt h]
  · obtain rfl := BitVec.eq_of_toNat_eq h
    rw [Int.compare_eq_eq.mpr (by omega)]
    exact Std.ReflCmp.compare_self.symm
  · rw [Int.compare_eq_gt.mpr (by omega), Std.OrientedCmp.gt_of_lt (compare_of_lt h)]

section Strings
variable {v : View} {s1 s2 p q : Addr} {s t : List Byte} {c d : Byte} {n : Nat}

theorem read_headD (h : StrAt v.mem s1 s) (hin : v.inside s1 = true) :
    v.read s1 = .ok (s.headD 0) := by
  cases s with
  | nil =>
    have hnul : v.mem s1 = 0 := h
    rw [View.read_of_inside hin, hnul, List.headD_nil]
  | cons c s => rw [View.read_of_inside hin, h.2.1, List.headD_cons]

/-- The heads of two strings decide where a loop stops, for want of `n` or because they part. -/
theorem compare_heads_take (hs : StrAt v.mem s1 s) (ht : StrAt v.mem s2 t)
    (h : n = 0 ∨ s.headD 0 = 0 ∨ s.headD 0 ≠ t.headD 0) :
    compare (s.headD 0) (t.headD 0) = compare (s.take (n + 1)) (t.take (n + 1)) := by
  have hhead : ∀ l : List Byte, (l.take (n + 1)).headD 0 = l.headD 0 := by
    intro l
    cases l <;> rfl
  rw [← hhead s, ← hhead t]
  refine compare_headD (fun c hc => compare_zero_of_ne (hs.ne_zero (List.mem_of_mem_take hc)))
    (fun d hd => compare_zero_of_ne (ht.ne_zero (List.mem_of_mem_take hd))) ?_
  rw [hhead s, hhead t]
  rcases h with rfl | h | h
  · exact .inr (.inr ⟨List.length_take_le 1 s, List.length_take_le 1 t⟩)
  · exact .inl h
  · exact .inr (.inl h)

theorem compare_heads (hs : StrAt v.mem s1 s) (ht : StrAt v.mem s2 t)
    (h : s.headD 0 = 0 ∨ s.headD 0 ≠ t.headD 0) : compare (s.headD 0) (t.headD 0) = compare s t := by
  rw [compare_heads_take (n := s.length + t.length) hs ht (.inr h), List.take_of_length_le (by omega),
    List.take_of_length_le (by omega)]

/-- The loop goes on where both strings start with one character. -/
theorem heads_cases (hs : StrAt v.mem s1 s) (ht : StrAt v.mem s2 t) :
    (s.headD 0 = 0 ∨ s.headD 0 ≠ t.headD 0) ∨
      ∃ c s' t', c ≠ 0 ∧ s = c :: s' ∧ t = c :: t' ∧ StrAt v.mem (s1 + 1) s' ∧ StrAt v.mem (s2 + 1) t' := by
  cases s with
  | nil => exact .inl (.inl rfl)
  | cons c s =>
    cases t with
    | nil => exact .inl (.inr hs.1)
    | cons d t =>
      by_cases hcd : c = d
      · subst hcd
        exact .inr ⟨c, s, t, hs.1, rfl, rfl, hs.2.2, ht.2.2⟩
      · exact .inl (.inr hcd)

theorem strcmpLoop_returns (hs : v.Str s1 s) (ht : v.Str s2 t) :
    ∃ p q c d, Returns (fun fuel => strcmpLoop v fuel s1 s2) (p, q) ∧ v.read p = .ok c ∧
      v.read q = .ok d ∧ compare c d = compare s t := by
  induction s generalizing s1 s2 t with
  | nil =>
    refine ⟨s1, s2, 0, t.headD 0, Returns.succ (.of_forall fun fuel => ?_), hs.read_nil,
      read_headD ht.str ht.holds.first, compare_heads hs.str ht.str (.inl rfl)⟩
    rw [strcmpLoop, hs.read_nil]
    rfl
  | cons c s ih =>
    have hc := hs.ne_zero
    have hread := read_headD ht.str ht.holds.first
    rcases heads_cases hs.str ht.str with hstop | ⟨c, s, t, -, hcons, rfl, -⟩
    · refine ⟨s1, s2, c, t.headD 0, Returns.succ (.of_forall fun fuel => ?_), hs.read_cons, hread,
        compare_heads hs.str ht.str hstop⟩
      have hne : c ≠ t.headD 0 := hstop.resolve_left hc
      rw [strcmpLoop, hs.read_cons, hread]
      simp only [ok_bind, ne_eq, hc, hne, not_false_eq_true, if_true, if_false]
      rfl
    · obtain ⟨rfl, rfl⟩ := List.cons.inj hcons
      obtain ⟨p, q, b, d, hret, hp, hq, hcmp⟩ := ih hs.tail ht.tail
      refine ⟨p, q, b, d, Returns.succ ?_, hp, hq, ?_⟩
      · simp only [strcmpLoop, hs.read_cons, ht.read_cons, ok_bind, ne_eq, hc,
          not_false_eq_true, if_true]
        exact hret
      · rw [hcmp, compare_cons_self]

theorem strncmpLoop_returns (hs : StrAt v.mem s1 s) (ht : StrAt v.mem s2 t)
    (hin1 : v.Holds s1 (min (n + 1) (s.length + 1))) (hin2 : v.Holds s2 (min (n + 1) (t.length + 1))) :
    ∃ p q c d, strncmpLoop v (n + 1) s1 s2 = .ok (p, q) ∧ v.read p = .ok c ∧ v.read q = .ok d ∧
      compare c d = compare (s.take (n + 1)) (t.take (n + 1)) := by
  induction n generalizing s1 s2 s t with
  | zero =>
    rw [Nat.succ_min_succ] at hin1 hin2
    exact ⟨s1, s2, _, _, rfl, read_headD hs hin1.first, read_headD ht hin2.first,
      compare_heads_take hs ht (.inl rfl)⟩
  | succ n ih =>
    rw [Nat.succ_min_succ] at hin1 hin2
    have hread1 := read_headD hs hin1.first
    have hread2 := read_headD ht hin2.first
    rcases heads_cases hs ht with hstop | ⟨c, s, t, hc, rfl, rfl, hs', ht'⟩
    · refine ⟨s1, s2, _, _, ?_, hread1, hread2, compare_heads_take hs ht (.inr hstop)⟩
      rw [strncmpLoop, hread1, hread2]
      simp only [ok_bind]
      split_ifs with h0 heq
      · exact absurd hstop (not_or.mpr ⟨h0, not_not.mpr heq⟩)
      · rfl
      · rfl
    · obtain ⟨p, q, b, d, hloop, hp, hq, hcmp⟩ := ih hs' ht' hin1.tail hin2.tail
      refine ⟨p, q, b, d, ?_, hp, hq, ?_⟩
      · rw [strncmpLoop, hread1, hread2]
        simp only [List.headD_cons, ok_bind, ne_eq, hc, not_false_eq_true, if_true]
        exact hloop
      · rw [hcmp, List.take_succ_cons, List.take_succ_cons, compare_cons_self]

/-- What `byteDiff` makes of the bytes where a loop has stopped. -/
theorem byteDiff_returns (hp : v.read p = .ok c) (hq : v.read q = .ok d) :
    ∃ r, byteDiff v p q = .ok r ∧ compare r 0 = compare c d := by
  refine ⟨c.toNat - d.toNat, ?_, compare_sub_zero c d⟩
  rw [byteDiff, hp, hq]
  rfl

theorem strcmp_returns (hs : v.Str s1 s) (ht : v.Str s2 t) :
    ∃ r, Returns (fun fuel => strcmp v fuel s1 s2) r ∧ compare r 0 = compare s t := by
  obtain ⟨p, q, c, d, hloop, hp, hq, hcmp⟩ := strcmpLoop_returns hs ht
  obtain ⟨r, hdiff, hr⟩ := byteDiff_returns hp hq
  exact ⟨r, hloop.bind (.of_ok hdiff), hr.trans hcmp⟩

theorem strncmp_returns {n : Word} (hs : StrAt v.mem s1 s) (ht : StrAt v.mem s2 t)
    (hin1 : v.Holds s1 (min n.toNat (s.length + 1))) (hin2 : v.Holds s2 (min n.toNat (t.length + 1))) :
    ∃ r, strncmp v s1 s2 n = .ok r ∧ compare r 0 = compare (s.take n.toNat) (t.take n.toNat) := by
  unfold strncmp
  by_cases h0 : n = 0
  · rw [if_pos h0, h0]
    exact ⟨0, rfl, rfl⟩
  · obtain ⟨k, hk⟩ : ∃ k, n.toNat = k + 1 := Nat.exists_eq_add_of_le' (by bv_omega)
    rw [if_neg h0]
    rw [hk] at hin1 hin2 ⊢
    obtain ⟨p, q, c, d, hloop, hp, hq, hcmp⟩ := strncmpLoop_returns hs ht hin1 hin2
    obtain ⟨r, hdiff, hr⟩ := byteDiff_returns hp hq
    refine ⟨r, ?_, hr.trans hcmp⟩
    rw [hloop]
    exact hdiff

theorem memcmpLoop_returns (hp : v.Holds p n) (hq : v.Holds q n) :
    ∃ r, memcmpLoop v n p q = .ok r ∧ compare r 0 = compare (bytesAt v.mem p n) (bytesAt v.mem q n) := by
  induction n generalizing p q with
  | zero => exact ⟨0, rfl, rfl⟩
  | succ n ih =>
    rw [memcmpLoop, View.read_of_inside hp.first, View.read_of_inside hq.first, bytesAt, bytesAt]
    simp only [ok_bind]
    by_cases heq : v.mem p = v.mem q
    · rw [heq, if_neg (not_not.mpr rfl), compare_cons_self]
      exact ih hp.tail hq.tail
    · rw [if_pos heq, List.compare_cons_cons]
      by_cases hlt : v.mem p < v.mem q
      · refine ⟨-1, by rw [if_pos hlt]; rfl, ?_⟩
        rw [compare_of_lt hlt]
        rfl
      · have hgt : v.mem q < v.mem p := by bv_omega
        refine ⟨1, by rw [if_neg hlt]; rfl, ?_⟩
        rw [Std.OrientedCmp.gt_of_lt (compare_of_lt hgt)]
        rfl

theorem memcmp_returns {k : Word} (hp0 : p ≠ 0) (hq0 : q ≠ 0) (hp : v.Holds p k.toNat)
    (hq : v.Holds q k.toNat) : ∃ r, memcmp v p q k = .ok r ∧
      compare r 0 = compare (bytesAt v.mem p k.toNat) (bytesAt v.mem q k.toNat) := by
  unfold memcmp
  rw [if_neg (not_or.mpr ⟨hp0, hq0⟩)]
  by_cases h0 : k = 0
  · rw [if_pos h0, h0]
    exact ⟨0, rfl, rfl⟩
  · rw [if_neg h0]
    exact memcmpLoop_returns hp hq

/-- As far as the end of the shorter string, the bytes are in the order of the strings. -/
theorem compare_bytesAt (hs : StrAt v.mem p s) (ht : StrAt v.mem q t)
    (hn : n = min s.length t.length + 1) :
    compare (bytesAt v.mem p n) (bytesAt v.mem q n) = compare s t := by
  rw [hs.bytesAt (by omega), ht.bytesAt (by omega), hn]
  exact compare_terminated (fun c hc => compare_zero_of_ne (hs.ne_zero hc))
    fun d hd => compare_zero_of_ne (ht.ne_zero hd)

end Strings

/-! ## One order -/

/-- The three functions in a view, each with no more in it than it has business with. -/
structure OneOrder (v : View) : Prop where
  ofStrcmp {s1 s2 : Addr} {s t : List Byte} : v.Str s1 s → v.Str s2 t →
    ∃ r, Returns (fun fuel => strcmp v fuel s1 s2) r ∧ compare r 0 = compare s t
  ofStrncmp {s1 s2 : Addr} {s t : List Byte} {n : Word} : StrAt v.mem s1 s → StrAt v.mem s2 t →
    v.Holds s1 (min n.toNat (s.length + 1)) → v.Holds s2 (min n.toNat (t.length + 1)) →
    ∃ r, strncmp v s1 s2 n = .ok r ∧ compare r 0 = compare (s.take n.toNat) (t.take n.toNat) ∧
      (n = 0 → r = 0) ∧ (min s.length t.length < n.toNat → compare r 0 = compare s t)
  ofMemcmp {p q : Addr} {k : Word} : p ≠ 0 → q ≠ 0 → v.Holds p k.toNat → v.Holds q k.toNat →
    ∃ r, memcmp v p q k = .ok r ∧
      compare r 0 = compare (bytesAt v.mem p k.toNat) (bytesAt v.mem q k.toNat) ∧
      ∀ s t, StrAt v.mem p s → StrAt v.mem q t → k.toNat = min s.length t.length + 1 →
        compare r 0 = compare s t
  antisymm {s1 s2 : Addr} {s t : List Byte} {r r' : Int} : v.Str s1 s → v.Str s2 t →
    Returns (fun fuel => strcmp v fuel s1 s2) r → Returns (fun fuel => strcmp v fuel s2 s1) r' →
    compare r' 0 = (compare r 0).swap
  trans {s1 s2 s3 : Addr} {s t u : List Byte} {r r' r'' : Int} : v.Str s1 s → v.Str s2 t →
    v.Str s3 u → Returns (fun fuel => strcmp v fuel s1 s2) r →
    Returns (fun fuel => strcmp v fuel s2 s3) r' → Returns (fun fuel => strcmp v fuel s1 s3) r'' →
    r ≤ 0 → r' ≤ 0 → r'' ≤ 0 ∧ (r < 0 ∨ r' < 0 → r'' < 0)
  eq_iff {s1 s2 : Addr} {s t : List Byte} {r : Int} : v.Str s1 s → v.Str s2 t →
    Returns (fun fuel => strcmp v fuel s1 s2) r → (r = 0 ↔ s = t)

section Order
variable {v : View} {s1 s2 : Addr} {s t : List Byte} {r : Int}

/-- What `strcmp` returns is in the order of the strings. -/
theorem compare_of_strcmp (hs : v.Str s1 s) (ht : v.Str s2 t)
    (hret : Returns (fun fuel => strcmp v fuel s1 s2) r) : compare r 0 = compare s t := by
  obtain ⟨r', hret', hr⟩ := strcmp_returns hs ht
  rw [hret.unique hret', hr]

theorem le_zero_iff : r ≤ 0 ↔ (compare r 0).isLE = true := Int.isLE_compare.symm

theorem lt_zero_iff : r < 0 ↔ compare r 0 = .lt := Int.compare_eq_lt.symm

end Order

/-- **One order.** The signs of `strcmp`, of `strncmp` and of `memcmp` are the lexicographic orders of the
strings, of their first `n` bytes and of the bytes compared. `strncmp` gives the order of the strings for
an `n` beyond the end of the shorter one, and `memcmp` for the bytes up to that end. -/
theorem string_order (v : View) : OneOrder v where
  ofStrcmp := strcmp_returns
  ofStrncmp {s1 s2 s t n} hs ht hin1 hin2 := by
    obtain ⟨r, hret, hr⟩ := strncmp_returns hs ht hin1 hin2
    refine ⟨r, hret, hr, fun h0 => ?_, fun hn => by rw [hr, compare_take hn]⟩
    rw [h0] at hr
    exact Int.compare_eq_eq.mp hr
  ofMemcmp hp0 hq0 hp hq := by
    obtain ⟨r, hret, hr⟩ := memcmp_returns hp0 hq0 hp hq
    exact ⟨r, hret, hr, fun s t hs ht hk => by rw [hr, compare_bytesAt hs ht hk]⟩
  antisymm hs ht hret hret' := by
    rw [compare_of_strcmp hs ht hret, compare_of_strcmp ht hs hret']
    exact Std.OrientedCmp.eq_swap
  trans hs ht hu hret hret' hret'' := by
    rw [le_zero_iff, le_zero_iff, le_zero_iff, lt_zero_iff, lt_zero_iff, lt_zero_iff,
      compare_of_strcmp hs ht hret, compare_of_strcmp ht hu hret', compare_of_strcmp hs hu hret'']
    intro hst htu
    refine ⟨Std.TransCmp.isLE_trans hst htu, fun hlt => ?_⟩
    rcases hlt with hlt | hlt
    · exact Std.TransCmp.lt_of_lt_of_isLE hlt htu
    · exact Std.TransCmp.lt_of_isLE_of_lt hst hlt
  eq_iff hs ht hret := by
    rw [← Int.compare_eq_eq, compare_of_strcmp hs ht hret]
    exact Std.LawfulEqCmp.compare_eq_iff_eq

/-- 0xE9 is behind 'a', though it is negative as a `char`. -/
theorem string_order_high : ∃ r,
    Returns (fun fuel => strcmp (View.texts [0x61] [0xE9]) fuel 0x1000 0x2000) r ∧ r < 0 := by
  have hs : (View.texts [0x61] [0xE9]).Str 0x1000 [0x61] := ⟨by decide, by decide⟩
  have ht : (View.texts [0x61] [0xE9]).Str 0x2000 [0xE9] := ⟨by decide, by decide⟩
  obtain ⟨r, hret, hr⟩ := (string_order (View.texts [0x61] [0xE9])).ofStrcmp hs ht
  exact ⟨r, hret, lt_zero_iff.mpr (hr.trans (by decide))⟩

end TuixOS
