import TuixOS.KallocRun
import Mathlib.Data.List.Sort

/-!
# The pages that `free_range` frees

`freeRangeCalls` is `free_range` with the calls of its loop as the result: the arguments of `kfree`,
in the order of the calls. `free_range` is these calls and nothing else (`freeRange_eq_kfreeAll`),
and they are the whole pages of the range, in increasing order (`freeRangeCalls_ok`), as long as the
range ends below the last page of the address space.
-/

namespace TuixOS

open Lib

/-- The arguments of the `kfree` calls of the loop of `free_range` at `p`. -/
def freeRangeLoopCalls : Nat → Addr → Addr → Option (List Addr)
  | 0, _, _ => none
  | n + 1, p, vend =>
    if p + pgSize ≤ vend then (freeRangeLoopCalls n (p + pgSize) vend).map (p :: ·) else some []

def freeRangeCalls (fuel : Nat) (vstart vend : Addr) : Option (List Addr) :=
  freeRangeLoopCalls fuel (pgRoundUp vstart) vend

/-- The calls `kfree(p)` for the pages of the list, in its order. -/
def kfreeAll (ps : List Addr) (s : Kmem) : Kmem := ps.foldl (fun s p => kfree p s) s

theorem kfreeAll_append (ps qs : List Addr) (s : Kmem) :
    kfreeAll (ps ++ qs) s = kfreeAll qs (kfreeAll ps s) :=
  List.foldl_append

/-! ## The loop is its calls -/

theorem freeRangeLoop_eq_kfreeAll : ∀ (n : Nat) (p vend : Addr) (s : Kmem),
    freeRangeLoop n p vend s = (freeRangeLoopCalls n p vend).map (kfreeAll · s)
  | 0, _, _, _ => rfl
  | n + 1, p, vend, s => by
    rw [freeRangeLoop, freeRangeLoopCalls]
    split_ifs with hloop
    · rw [freeRangeLoop_eq_kfreeAll n, Option.map_map]
      rfl
    · rfl

theorem freeRange_eq_kfreeAll (fuel : Nat) (vstart vend : Addr) (s : Kmem) :
    freeRange fuel vstart vend s = (freeRangeCalls fuel vstart vend).map (kfreeAll · s) :=
  freeRangeLoop_eq_kfreeAll fuel _ _ s

/-! ## The calls are the pages of the range -/

/-- The whole pages of the range from `vstart` to `vend`, in increasing order. -/
def PagesOf (vstart vend : Addr) (ps : List Addr) : Prop :=
  ps.Pairwise (· < ·) ∧ ∀ p, p ∈ ps ↔ InRange vstart vend p

theorem PagesOf.unique {vstart vend : Addr} {ps qs : List Addr} (hps : PagesOf vstart vend ps)
    (hqs : PagesOf vstart vend qs) : ps = qs :=
  hps.1.eq_of_mem_iff hqs.1 fun p => (hps.2 p).trans (hqs.2 p).symm

/-- No whole page fits, so the loop ends. -/
theorem pagesOf_nil {p vend : Addr} (h : ¬p.toNat + 4096 ≤ vend.toNat) : PagesOf p vend [] := by
  refine ⟨List.Pairwise.nil, fun q => ⟨fun hq => absurd hq List.not_mem_nil, ?_⟩⟩
  rintro ⟨-, hlo, hhi⟩
  omega

/-- The page at `p` and then the pages after it. -/
theorem PagesOf.cons {p vend : Addr} {ps : List Addr} (hal : PageAligned p)
    (hp : p.toNat + 4096 ≤ vend.toNat) (h : PagesOf (p + pgSize) vend ps) :
    PagesOf p vend (p :: ps) := by
  have hnext : (p + pgSize).toNat = p.toNat + 4096 := by
    have := vend.isLt
    rw [BitVec.toNat_add, pgSize_toNat]
    omega
  obtain ⟨hsorted, hmem⟩ := h
  refine ⟨List.pairwise_cons.mpr ⟨fun q hq => ?_, hsorted⟩, fun q => ?_⟩
  · have hlo := ((hmem q).mp hq).2.1
    rw [BitVec.lt_def]
    omega
  · rw [List.mem_cons, hmem]
    constructor
    · rintro (rfl | ⟨hqal, hlo, hhi⟩)
      · exact ⟨hal, le_refl _, hp⟩
      · exact ⟨hqal, by omega, hhi⟩
    · rintro ⟨hqal, hlo, hhi⟩
      by_cases hq : q = p
      · exact Or.inl hq
      · -- aligned and above `p`, so at least a page above it
        have hne : q.toNat ≠ p.toNat := fun he => hq (BitVec.eq_of_toNat_eq he)
        unfold PageAligned at hal hqal
        exact Or.inr ⟨hqal, by omega, hhi⟩

/-- The induction is on the number of pages left; every further unit of fuel changes nothing. -/
theorem freeRangeLoopCalls_ok : ∀ (k : Nat) (p vend : Addr), PageAligned p →
    p.toNat ≤ 0xFFFFE000 → vend.toNat ≤ 0xFFFFE000 → vend.toNat < p.toNat + (k + 1) * 4096 →
    ∃ ps, PagesOf p vend ps ∧ ∀ fuel > k, freeRangeLoopCalls fuel p vend = some ps := by
  intro k
  induction k with
  | zero =>
    intro p vend hal hp hend hk
    refine ⟨[], pagesOf_nil (by omega), fun fuel hfuel => ?_⟩
    obtain ⟨n, rfl⟩ := Nat.exists_eq_add_of_lt hfuel
    rw [freeRangeLoopCalls, if_neg]
    rw [loop_test hp]
    omega
  | succ k ih =>
    intro p vend hal hp hend hk
    by_cases hfit : p.toNat + 4096 ≤ vend.toNat
    · have hnext : (p + pgSize).toNat = p.toNat + 4096 := by
        rw [BitVec.toNat_add, pgSize_toNat]
        omega
      obtain ⟨ps, hps, hcalls⟩ := ih (p + pgSize) vend hal.add_pgSize (by omega) hend (by omega)
      refine ⟨p :: ps, hps.cons hal hfit, fun fuel hfuel => ?_⟩
      obtain ⟨n, rfl⟩ := Nat.exists_eq_add_of_lt hfuel
      rw [freeRangeLoopCalls, if_pos ((loop_test hp).mpr hfit), hcalls _ (by omega)]
      rfl
    · refine ⟨[], pagesOf_nil hfit, fun fuel hfuel => ?_⟩
      obtain ⟨n, rfl⟩ := Nat.exists_eq_add_of_lt hfuel
      rw [freeRangeLoopCalls, if_neg]
      rwa [loop_test hp]

/-- Rounding the start up to a page loses no whole page. -/
theorem PagesOf.of_pgRoundUp {vstart vend : Addr} {ps : List Addr}
    (hstart : vstart.toNat ≤ 0xFFFFE000) (h : PagesOf (pgRoundUp vstart) vend ps) : PagesOf vstart vend ps := by
  have hup := pgRoundUp_toNat vstart
  refine ⟨h.1, fun p => (h.2 p).trans ⟨?_, ?_⟩⟩
  · rintro ⟨hal, hlo, hhi⟩
    exact ⟨hal, by omega, hhi⟩
  · rintro ⟨hal, hlo, hhi⟩
    refine ⟨hal, ?_, hhi⟩
    unfold PageAligned at hal
    omega

theorem freeRangeCalls_ok {vstart vend : Addr} (hle : vstart ≤ vend) (hend : vend ≤ 0xFFFFE000) :
    ∃ ps, PagesOf vstart vend ps ∧ ∃ n, ∀ fuel ≥ n, freeRangeCalls fuel vstart vend = some ps := by
  have hup := pgRoundUp_toNat vstart
  have hend' : vend.toNat ≤ 0xFFFFE000 := hend
  have hle' : vstart.toNat ≤ vend.toNat := hle
  obtain ⟨ps, hps, hcalls⟩ := freeRangeLoopCalls_ok vend.toNat (pgRoundUp vstart) vend
    (pageAligned_pgRoundUp vstart) (by omega) hend' (by omega)
  exact ⟨ps, hps.of_pgRoundUp (by omega), vend.toNat + 1, fun fuel hfuel => hcalls fuel hfuel⟩

/-! ## Splitting a range at a page -/

theorem PagesOf.append {a b c : Addr} (hb : PageAligned b) (hab : a ≤ b) (hbc : b ≤ c)
    {ps qs : List Addr} (hps : PagesOf a b ps) (hqs : PagesOf b c qs) : PagesOf a c (ps ++ qs) := by
  rw [BitVec.le_def] at hab hbc
  refine ⟨List.pairwise_append.mpr ⟨hps.1, hqs.1, fun p hp q hq => ?_⟩, fun p => ?_⟩
  · have hpb := ((hps.2 p).mp hp).2.2
    have hbq := ((hqs.2 q).mp hq).2.1
    rw [BitVec.lt_def]
    omega
  · rw [List.mem_append, hps.2, hqs.2]
    constructor
    · rintro (⟨hal, hlo, hhi⟩ | ⟨hal, hlo, hhi⟩)
      · exact ⟨hal, hlo, by omega⟩
      · exact ⟨hal, by omega, hhi⟩
    · -- `b` is a page boundary, so a page does not lie across it
      rintro ⟨hal, hlo, hhi⟩
      unfold PageAligned at hb
      by_cases hp : p.toNat < b.toNat
      · refine Or.inl ⟨hal, hlo, ?_⟩
        unfold PageAligned at hal
        omega
      · exact Or.inr ⟨hal, by omega, hhi⟩

/-- **`free_range` frees exactly the whole pages of its range.** It returns, after one call of
`kfree` for each aligned page inside the range, in increasing order, and no other; splitting the
range at a page boundary makes the same calls. -/
theorem free_range_exact {vstart vend : Addr} (hle : vstart ≤ vend) (hend : vend ≤ 0xFFFFE000) :
    (∃ ps, ps.Pairwise (· < ·) ∧ (∀ p, p ∈ ps ↔ InRange vstart vend p) ∧
      ∃ n, ∀ fuel ≥ n, freeRangeCalls fuel vstart vend = some ps ∧
        ∀ s, freeRange fuel vstart vend s = some (kfreeAll ps s)) ∧
    ∀ b, PageAligned b → vstart ≤ b → b ≤ vend → ∃ ps qs n, ∀ fuel ≥ n,
      freeRangeCalls fuel vstart b = some ps ∧ freeRangeCalls fuel b vend = some qs ∧
      freeRangeCalls fuel vstart vend = some (ps ++ qs) ∧
      ∀ s, (freeRange fuel vstart b s).bind (freeRange fuel b vend) =
        freeRange fuel vstart vend s := by
  obtain ⟨rs, hrs, n, hcalls⟩ := freeRangeCalls_ok hle hend
  refine ⟨⟨rs, hrs.1, hrs.2, n, fun fuel hfuel => ⟨hcalls fuel hfuel, fun s => ?_⟩⟩, ?_⟩
  · rw [freeRange_eq_kfreeAll, hcalls fuel hfuel]
    rfl
  · intro b hb hab hbc
    obtain ⟨ps, hps, n₁, hcalls₁⟩ := freeRangeCalls_ok hab (BitVec.le_trans hbc hend)
    obtain ⟨qs, hqs, n₂, hcalls₂⟩ := freeRangeCalls_ok hbc hend
    have happend : rs = ps ++ qs := hrs.unique (hps.append hb hab hbc hqs)
    subst happend
    refine ⟨ps, qs, n + n₁ + n₂, fun fuel hfuel => ?_⟩
    have h := hcalls fuel (by omega)
    have h₁ := hcalls₁ fuel (by omega)
    have h₂ := hcalls₂ fuel (by omega)
    refine ⟨h₁, h₂, h, fun s => ?_⟩
    rw [freeRange_eq_kfreeAll, freeRange_eq_kfreeAll, h, h₁]
    show freeRange fuel b vend (kfreeAll ps s) = some (kfreeAll (ps ++ qs) s)
    rw [freeRange_eq_kfreeAll, h₂, kfreeAll_append]
    rfl

/-- An unaligned start and an unaligned end: two whole pages between. -/
theorem free_range_exact_unaligned :
    ∃ n, ∀ fuel ≥ n, freeRangeCalls fuel 0x1001 0x4FFF = some [0x2000, 0x3000] ∧
      ∀ s, freeRange fuel 0x1001 0x4FFF s = some (kfree 0x3000 (kfree 0x2000 s)) := by
  obtain ⟨ps, -, -, n, h⟩ :=
    (free_range_exact (show 0x1001#32 ≤ 0x4FFF#32 by decide) (by decide)).1
  have hthree : freeRangeCalls (n + 3) 0x1001 0x4FFF = some [0x2000, 0x3000] := rfl
  have hps : [0x2000, 0x3000] = ps :=
    Option.some.inj (hthree.symm.trans (h (n + 3) (by omega)).1)
  subst hps
  exact ⟨n, h⟩

end TuixOS
