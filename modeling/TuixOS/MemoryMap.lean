import TuixOS.Multiboot2

/-!
# Memory maps that nothing has checked

`parse_memory_map_entries` takes the `size` and the `entry_size` of its tag as they are, and the bounds of
the usable memory in 32 bits. The first part runs it with a record of the entries it reads and the slots
it stores them in (`memory_map_safe_iff`), the second compares the bounds with those of the memory map
(`usable_bounds_iff`).
-/

namespace TuixOS

open Lib

/-! ## The table -/

/-- The entry loop with a record of the entries it reads, each with the slot it is stored in. A store
outside `memory_map` is the last. -/
def parseEntriesRun (m : Mem) (entrySize : Word) :
    Nat → Nat → Addr → MemInfo → List (Addr × Nat) × Option MemInfo
  | 0, _, _, mi => ([], some mi)
  | n + 1, i, entry, mi =>
    if hi : i < 32 then
      let (accesses, mi) := parseEntriesRun m entrySize n (i + 1) (entry + entrySize)
        (countEntry ⟨i, hi⟩ (loadEntry m entry) mi)
      ((entry, i) :: accesses, mi)
    else ([(entry, i)], none)

/-- What a call has divided by, its record, and the result. -/
structure MapRun where
  divisor : Word
  accesses : List (Addr × Nat)
  result : Option MemInfo

def parseMemoryMapRun (m : Mem) (mmap : Addr) (mi : MemInfo) : MapRun :=
  let size := load32 m (mmap + 4)
  let entrySize := load32 m (mmap + 8)
  if entrySize = 0 then ⟨entrySize, [], none⟩
  else
    let entryCount := (size - 16) / entrySize
    let (accesses, mi) := parseEntriesRun m entrySize entryCount.toNat 0 (mmap + 16)
      (resetStatistics entryCount mi)
    ⟨entrySize, accesses, mi⟩

/-- No division by zero, every store in `memory_map`, every entry inside the tag, and the count is that of
the slots filled. -/
structure MapSafe (m : Mem) (mmap : Addr) (mi : MemInfo) : Prop where
  divisor : (parseMemoryMapRun m mmap mi).divisor ≠ 0
  slot : ∀ a ∈ (parseMemoryMapRun m mmap mi).accesses, a.2 < 32
  inside : ∀ a ∈ (parseMemoryMapRun m mmap mi).accesses,
    (a.1 - mmap).toNat + 24 ≤ (load32 m (mmap + 4)).toNat
  count : ∃ mi', (parseMemoryMapRun m mmap mi).result = some mi' ∧
    (parseMemoryMapRun m mmap mi).accesses.map Prod.snd = List.range mi'.memoryMapCount.toNat

/-- The entries that `size` and `entry_size` ask for are at most 32, and end with the tag. -/
def EntriesFit (size entrySize : Word) : Prop :=
  let n := ((size - 16) / entrySize).toNat
  entrySize ≠ 0 ∧ n ≤ 32 ∧ (n ≠ 0 → 16 + (n - 1) * entrySize.toNat + 24 ≤ size.toNat)

instance (size entrySize : Word) : Decidable (EntriesFit size entrySize) :=
  inferInstanceAs (Decidable (_ ∧ _ ∧ _))

section Table
variable {m : Mem} {entrySize : Word}

theorem parseEntriesRun_result (n i : Nat) (entry : Addr) (mi : MemInfo) :
    (parseEntriesRun m entrySize n i entry mi).2 = parseEntriesLoop m entrySize n i entry mi := by
  induction n generalizing i entry mi with
  | zero => rfl
  | succ n ih =>
    rw [parseEntriesRun, parseEntriesLoop]
    split_ifs with hi
    · exact ih _ _ _
    · rfl

/-- The record is of the parser's own run. -/
theorem parseMemoryMapRun_result (m : Mem) (mmap : Addr) (mi : MemInfo) :
    (parseMemoryMapRun m mmap mi).result = parseMemoryMapEntries m mmap mi := by
  unfold parseMemoryMapRun parseMemoryMapEntries
  simp only
  split_ifs with h0
  · rfl
  · exact parseEntriesRun_result _ _ _ _

theorem entry_succ (entry : Addr) (k : Nat) :
    entry + entrySize + BitVec.ofNat 32 (k * entrySize.toNat) =
      entry + BitVec.ofNat 32 ((k + 1) * entrySize.toNat) := by
  rw [Nat.succ_mul, Nat.add_comm (k * _), BitVec.ofNat_add, BitVec.ofNat_toNat, BitVec.setWidth_eq,
    BitVec.add_assoc]

variable (m entrySize) in
theorem parseEntriesRun_accesses {n i : Nat} (entry : Addr) (mi : MemInfo) (h : i + n ≤ 32) :
    (parseEntriesRun m entrySize n i entry mi).1 =
      (List.range n).map fun k => (entry + BitVec.ofNat 32 (k * entrySize.toNat), i + k) := by
  induction n generalizing i entry mi with
  | zero => rfl
  | succ n ih =>
    rw [parseEntriesRun, dif_pos (by omega), List.range_succ_eq_map, List.map_cons, List.map_map]
    refine congrArg₂ List.cons ?_ ?_
    · rw [Nat.zero_mul, Nat.add_zero]
      exact congrArg (·, i) (BitVec.add_zero entry).symm
    · refine (ih _ _ (by omega)).trans (List.map_congr_left fun k _ => ?_)
      rw [entry_succ]
      exact congrArg (_, ·) (by omega)

variable (m entrySize) in
theorem parseEntriesRun_overrun {n i : Nat} (entry : Addr) (mi : MemInfo) (hi : i ≤ 32)
    (h : 32 < i + n) : ∃ a ∈ (parseEntriesRun m entrySize n i entry mi).1, a.2 = 32 := by
  induction n generalizing i entry mi with
  | zero => omega
  | succ n ih =>
    rw [parseEntriesRun]
    by_cases hlt : i < 32
    · obtain ⟨a, ha, h32⟩ := ih (entry + entrySize) (countEntry ⟨i, hlt⟩ (loadEntry m entry) mi)
        hlt (by omega)
      rw [dif_pos hlt]
      exact ⟨a, List.mem_cons_of_mem _ ha, h32⟩
    · rw [dif_neg hlt]
      exact ⟨(entry, i), List.mem_singleton_self _, by simp only; omega⟩

theorem parseMemoryMapRun_eq {mmap : Addr} (hes : load32 m (mmap + 8) ≠ 0) (mi : MemInfo) :
    (parseMemoryMapRun m mmap mi).divisor = load32 m (mmap + 8) ∧
      (parseMemoryMapRun m mmap mi).accesses =
        (parseEntriesRun m (load32 m (mmap + 8))
          ((load32 m (mmap + 4) - 16) / load32 m (mmap + 8)).toNat 0 (mmap + 16)
          (resetStatistics ((load32 m (mmap + 4) - 16) / load32 m (mmap + 8)) mi)).1 := by
  unfold parseMemoryMapRun
  simp only [if_neg hes, and_self]

/-- The entry count times the size of an entry is at most what it was divided out of. -/
theorem entries_le {size : Word} (n : Nat) (hn : n = ((size - 16) / entrySize).toNat) :
    n * entrySize.toNat ≤ (size - 16).toNat := by
  rw [hn, BitVec.toNat_udiv]
  exact Nat.div_mul_le_self _ _

theorem entry_offset (mmap : Addr) (k : Nat) :
    (mmap + 16 + BitVec.ofNat 32 k - mmap).toNat = (16 + k) % 2 ^ 32 := by
  have h16 : (16 : Word).toNat = 16 := rfl
  rw [BitVec.add_assoc, BitVec.add_comm, BitVec.add_sub_cancel, BitVec.toNat_add, h16,
    BitVec.toNat_ofNat, Nat.add_mod_mod]

/-- What the slots and the last entry say about the fields. -/
theorem MapSafe.entriesFit {mmap : Addr} {mi : MemInfo} (h : MapSafe m mmap mi) :
    EntriesFit (load32 m (mmap + 4)) (load32 m (mmap + 8)) := by
  have hes : load32 m (mmap + 8) ≠ 0 := by
    intro h0
    refine h.divisor ?_
    unfold parseMemoryMapRun
    simp only [if_pos h0]
    exact h0
  obtain ⟨-, hslot, hinside, -⟩ := h
  obtain ⟨-, hacc⟩ := parseMemoryMapRun_eq hes mi
  rw [hacc] at hslot hinside
  unfold EntriesFit
  generalize hn : ((load32 m (mmap + 4) - 16) / load32 m (mmap + 8)).toNat = n at hslot hinside ⊢
  have hle : n ≤ 32 := by
    by_contra hgt
    obtain ⟨a, ha, h32⟩ := parseEntriesRun_overrun m (load32 m (mmap + 8))
      (mmap + 16) (resetStatistics ((load32 m (mmap + 4) - 16) / load32 m (mmap + 8)) mi)
      (Nat.zero_le 32) (n := n) (by omega)
    exact absurd (hslot a ha) (by omega)
  refine ⟨hes, hle, fun hpos => ?_⟩
  rw [parseEntriesRun_accesses _ _ _ _ (by omega)] at hinside
  have hlast := hinside _ (List.mem_map_of_mem (List.mem_range.mpr (Nat.sub_one_lt hpos)))
  rw [entry_offset] at hlast
  have hsplit : n * (load32 m (mmap + 8)).toNat =
      (n - 1) * (load32 m (mmap + 8)).toNat + (load32 m (mmap + 8)).toNat := by
    conv_lhs => rw [← Nat.succ_pred hpos]
    exact Nat.succ_mul _ _
  have hsize := (load32 m (mmap + 4)).isLt
  have hmul := entries_le n hn.symm
  have h16 : (16 : Word).toNat = 16 := rfl
  rw [BitVec.toNat_sub, h16] at hmul
  omega

/-- Entry `k` goes to slot `k`, and lies in front of the last one. -/
theorem EntriesFit.mapSafe {mmap : Addr}
    (h : EntriesFit (load32 m (mmap + 4)) (load32 m (mmap + 8))) (mi : MemInfo) :
    MapSafe m mmap mi := by
  obtain ⟨hes, hle, hlast⟩ := h
  obtain ⟨hdiv, hacc⟩ := parseMemoryMapRun_eq hes mi
  generalize hn : ((load32 m (mmap + 4) - 16) / load32 m (mmap + 8)).toNat = n at hacc hle hlast
  rw [parseEntriesRun_accesses _ _ _ _ (by omega)] at hacc
  refine ⟨hdiv ▸ hes, fun a ha => ?_, fun a ha => ?_, ?_⟩
  · rw [hacc] at ha
    obtain ⟨k, hk, rfl⟩ := List.mem_map.mp ha
    have hlt := List.mem_range.mp hk
    simp only
    omega
  · rw [hacc] at ha
    obtain ⟨k, hk, rfl⟩ := List.mem_map.mp ha
    have hlt := List.mem_range.mp hk
    have hend := hlast (by omega)
    have hsize := (load32 m (mmap + 4)).isLt
    have hkmul : k * (load32 m (mmap + 8)).toNat ≤ (n - 1) * (load32 m (mmap + 8)).toNat :=
      Nat.mul_le_mul_right _ (by omega)
    simp only [entry_offset]
    omega
  · have hlen : (entriesAt m mmap).length = n := by
      rw [entriesAt, List.length_map, List.length_range, hn]
    obtain ⟨mi', hmi', -, hmapOf⟩ := parseMemoryMapEntries_entriesAt hes (hlen ▸ hle) mi
    refine ⟨mi', (parseMemoryMapRun_result m mmap mi).trans hmi', ?_⟩
    rw [hacc, hmapOf.count, hlen, List.map_map]
    exact (List.map_congr_left fun k _ => Nat.zero_add k).trans (List.map_id _)

/-- **The table.** A tag is parsed within its bounds and those of the table just when its entries are at
most 32 and end with the tag. -/
theorem memory_map_safe_iff (m : Mem) (mmap : Addr) (mi : MemInfo) :
    MapSafe m mmap mi ↔ EntriesFit (load32 m (mmap + 4)) (load32 m (mmap + 8)) :=
  ⟨fun h => h.entriesFit, fun h => h.mapSafe mi⟩

/-- A tag of 33 entries of 24 bytes. -/
def longMapWords : List Word := [6, 16 + 33 * 24, 24]

theorem memory_map_overrun : ¬MapSafe (wordMem longMapWords) 0 MemInfo.zero := by
  intro h
  have hes : load32 (wordMem longMapWords) (0 + 8) = 24 := by decide
  have hsize : load32 (wordMem longMapWords) (0 + 4) = 808 := by decide
  obtain ⟨-, hacc⟩ := parseMemoryMapRun_eq (by rw [hes]; decide) MemInfo.zero
  have hslot := h.slot
  rw [hacc, hes, hsize] at hslot
  obtain ⟨a, ha, h32⟩ := parseEntriesRun_overrun (wordMem longMapWords) 24 (0 + 16)
    (resetStatistics ((808 - 16) / 24) MemInfo.zero) (Nat.zero_le 32)
    (n := ((808 - 16 : Word) / 24).toNat) (by decide)
  exact absurd (hslot a ha) (by omega)

end Table

/-! ## The bounds of the usable memory -/

/-- The first byte behind an entry. -/
def MmapEntry.endAddr (e : MmapEntry) : ℕ := e.addr.toNat + e.len.toNat

/-- The bounds are the least start and the greatest end of the usable entries, an end that does not fit into
32 bits being 0xFFFFFFFF, and 0 without such an entry. -/
structure UsableBounds (es : List MmapEntry) (mi : MemInfo) : Prop where
  none : (∀ e ∈ es, ¬e.Usable) → mi.firstUsableAddr = 0 ∧ mi.lastUsableAddr = 0
  first : (∃ e ∈ es, e.Usable) →
    IsLeast {a | ∃ e ∈ es, e.Usable ∧ a = e.addr.toNat} mi.firstUsableAddr.toNat
  last : ∀ a, IsGreatest {a | ∃ e ∈ es, e.Usable ∧ a = e.endAddr} a →
    mi.lastUsableAddr.toNat = min a 0xFFFFFFFF
  lt : (∃ e ∈ es, e.Usable ∧ 0 < e.len) → mi.firstUsableAddr < mi.lastUsableAddr

/-- Every usable entry ends below 4 GiB, or one of them ends where the truncated end is 0xFFFFFFFF. -/
def EndsFit (es : List MmapEntry) : Prop :=
  (∀ e ∈ es, e.Usable → e.endAddr < 2 ^ 32) ∨
    ∃ e ∈ es, e.Usable ∧ e.endAddr % 2 ^ 32 = 0xFFFFFFFF

section Bounds
variable {es : List MmapEntry} {mi : MemInfo}

theorem mem_usableStarts {a : ℕ} : a ∈ usableStarts es ↔ ∃ e ∈ es, e.Usable ∧ a = e.addr.toNat := by
  simp only [usableStarts, List.mem_map, List.mem_filter, decide_eq_true_eq, and_assoc, @eq_comm _ a]

theorem mem_usableEnds {a : ℕ} :
    a ∈ usableEnds es ↔ ∃ e ∈ es, e.Usable ∧ a = e.endAddr % 2 ^ 32 := by
  have hend : ∀ e : MmapEntry, (e.addr + e.len).toNat % 2 ^ 32 = e.endAddr % 2 ^ 32 := by
    intro e
    rw [BitVec.toNat_add, Nat.mod_mod_of_dvd _ (by decide : 2 ^ 32 ∣ 2 ^ 64), MmapEntry.endAddr]
  simp only [usableEnds, List.mem_map, List.mem_filter, decide_eq_true_eq, hend, and_assoc,
    @eq_comm _ a]

theorem usableEnds_ne_nil : usableEnds es ≠ [] ↔ ∃ e ∈ es, e.Usable := by
  simp [usableEnds, List.filter_eq_nil_iff]

theorem usableStarts_ne_nil : usableStarts es ≠ [] ↔ ∃ e ∈ es, e.Usable := by
  simp [usableStarts, List.filter_eq_nil_iff]

/-- The truncated ends have the same greatest as the saturated ones just when the ends fit. -/
theorem greatest_usableEnds (hu : ∃ e ∈ es, e.Usable) {a : ℕ}
    (ha : IsGreatest {a | ∃ e ∈ es, e.Usable ∧ a = e.endAddr} a) :
    greatest (usableEnds es) = min a 0xFFFFFFFF ↔ EndsFit es := by
  obtain ⟨⟨e, he, hue, rfl⟩, hmax⟩ := ha
  have hgreatest := isGreatest_greatest (usableEnds_ne_nil.mpr hu)
  obtain ⟨e', he', hue', heq⟩ := mem_usableEnds.mp hgreatest.1
  have hlt : ∀ a, a % 2 ^ 32 ≤ 0xFFFFFFFF := fun a => by omega
  constructor
  · intro hmin
    by_cases hfit : e.endAddr < 2 ^ 32
    · exact Or.inl fun e'' he'' hu'' => lt_of_le_of_lt (hmax ⟨e'', he'', hu'', rfl⟩) hfit
    · exact Or.inr ⟨e', he', hue', by omega⟩
  · rintro (hfit | ⟨e'', he'', hu'', htop⟩)
    · have hend := hfit e he hue
      have hle := hgreatest.2 (mem_usableEnds.mpr ⟨e, he, hue, rfl⟩)
      have hge := hmax ⟨e', he', hue', rfl⟩
      have hend' := hfit e' he' hue'
      omega
    · have hle := hgreatest.2 (mem_usableEnds.mpr ⟨e'', he'', hu'', rfl⟩)
      have hge := hmax ⟨e'', he'', hu'', rfl⟩
      have htop' := hlt e'.endAddr
      omega

theorem exists_greatest_end (hu : ∃ e ∈ es, e.Usable) :
    ∃ a, IsGreatest {a | ∃ e ∈ es, e.Usable ∧ a = e.endAddr} a := by
  have hne : (es.filter fun e => e.Usable).map MmapEntry.endAddr ≠ [] := by
    simpa [List.filter_eq_nil_iff] using hu
  have hgreatest := isGreatest_greatest hne
  have hset : {a | a ∈ (es.filter fun e => e.Usable).map MmapEntry.endAddr} =
      {a | ∃ e ∈ es, e.Usable ∧ a = e.endAddr} := by
    ext a
    simp only [Set.mem_ofPred_eq, List.mem_map, List.mem_filter, decide_eq_true_eq, and_assoc,
      @eq_comm _ a]
  exact ⟨_, hset ▸ hgreatest⟩

/-- The scan has the bounds of the memory map just when the ends fit. -/
theorem MapOf.usableBounds_iff (h : MapOf es mi) : UsableBounds es mi ↔ EndsFit es := by
  by_cases hu : ∃ e ∈ es, e.Usable
  · obtain ⟨a, ha⟩ := exists_greatest_end hu
    have hlast := greatest_usableEnds hu ha
    rw [← h.last] at hlast
    constructor
    · intro hb
      exact hlast.mp (hb.last a ha)
    · intro hfit
      have hmin := hlast.mpr hfit
      have hfirst : IsLeast {a | ∃ e ∈ es, e.Usable ∧ a = e.addr.toNat} mi.firstUsableAddr.toNat := by
        have hleast := isLeast_least (usableStarts_ne_nil.mpr hu)
        simp only [mem_usableStarts] at hleast
        rwa [h.first]
      refine ⟨fun hnone => ?_, fun _ => hfirst, fun b hb => ?_, ?_⟩
      · obtain ⟨e, he, hue⟩ := hu
        exact absurd hue (hnone e he)
      · rw [hb.unique ha, hmin]
      · rintro ⟨e, he, hue, hpos⟩
        -- the entry starts below its own end, and below 0xFFFFFFFF
        have hstart := hfirst.2 ⟨e, he, hue, rfl⟩
        have hend : e.addr.toNat + e.len.toNat ≤ a := ha.2 ⟨e, he, hue, rfl⟩
        have hlen : 0 < e.len.toNat := BitVec.lt_def.mp hpos
        have hhigh : e.addr.toNat < 0xFFFFFFFF := BitVec.lt_def.mp hue.2.2
        rw [BitVec.lt_def]
        omega
  · have hnil : usableStarts es = [] ∧ usableEnds es = [] :=
      ⟨not_not.mp (mt usableStarts_ne_nil.mp hu), not_not.mp (mt usableEnds_ne_nil.mp hu)⟩
    refine iff_of_true ⟨fun _ => ⟨?_, ?_⟩, fun h' => absurd h' hu, ?_, ?_⟩
      (Or.inl fun e he hue => absurd ⟨e, he, hue⟩ hu)
    · apply BitVec.eq_of_toNat_eq
      rw [h.first, hnil.1, least_nil]
      rfl
    · apply BitVec.eq_of_toNat_eq
      rw [h.last, hnil.2, greatest_nil]
      rfl
    · rintro a ⟨⟨e, he, hue, -⟩, -⟩
      exact absurd ⟨e, he, hue⟩ hu
    · rintro ⟨e, he, hue, -⟩
      exact absurd ⟨e, he, hue⟩ hu

end Bounds

/-- **The bounds** of a memory map with at most 32 entries are right just when the ends of the usable
entries fit into 32 bits, or one of them is cut to 0xFFFFFFFF. -/
theorem usable_bounds_iff {m : Mem} {mmap : Addr} (hes : load32 m (mmap + 8) ≠ 0)
    (hcount : (entriesAt m mmap).length ≤ 32) (mi : MemInfo) :
    ∃ mi', parseMemoryMapEntries m mmap mi = some mi' ∧
      (UsableBounds (entriesAt m mmap) mi' ↔ EndsFit (entriesAt m mmap)) := by
  obtain ⟨mi', hmi', -, hmapOf⟩ := parseMemoryMapEntries_entriesAt hes hcount mi
  exact ⟨mi', hmi', hmapOf.usableBounds_iff⟩

/-- A tag with two usable regions: the lower one is the second of them. -/
def twoRegionsWords : List Word :=
  [6, 64, 24, 0, 0x8000000, 0, 0x7EE0000, 0, 1, 0, 0x100000, 0, 0x300000, 0, 1, 0]

/-- The bounds are the start of the second region and the end of the first. -/
theorem usable_bounds_iff_two : ∃ mi', parseMemoryMapEntries (wordMem twoRegionsWords) 0 MemInfo.zero = some mi' ∧
    UsableBounds [⟨0x8000000, 0x7EE0000, 1, 0⟩, ⟨0x100000, 0x300000, 1, 0⟩] mi' ∧
    mi'.firstUsableAddr = 0x100000 ∧ mi'.lastUsableAddr = 0xFEE0000 := by
  have hentries : entriesAt (wordMem twoRegionsWords) 0 =
      [⟨0x8000000, 0x7EE0000, 1, 0⟩, ⟨0x100000, 0x300000, 1, 0⟩] := by
    decide
  have hsize : load32 (wordMem twoRegionsWords) (0 + 8) ≠ 0 := by decide
  obtain ⟨mi', hmi', hiff⟩ := usable_bounds_iff hsize (by rw [hentries]; decide) MemInfo.zero
  rw [hentries] at hiff
  have hbounds : (parseMemoryMapEntries (wordMem twoRegionsWords) 0 MemInfo.zero).map
      (fun mi => (mi.firstUsableAddr, mi.lastUsableAddr)) = some (0x100000, 0xFEE0000) := by
    decide +kernel
  rw [hmi'] at hbounds
  have hpair := Prod.mk.inj (Option.some.inj hbounds)
  exact ⟨mi', hmi', hiff.mpr (Or.inl (by decide)), hpair.1, hpair.2⟩

/-- A tag with one usable region from 1 MiB on, of the given length. -/
def regionWords (len : Word) : List Word := [6, 40, 24, 0, 0x100000, 0, len, 0, 1, 0]

/-- A region that ends at 4 GiB leaves 0 for the end of the usable memory. -/
theorem usable_bounds_4G : ∃ mi', parseMemoryMapEntries (wordMem (regionWords 0xFFF00000)) 0
    MemInfo.zero = some mi' ∧
      ¬UsableBounds (entriesAt (wordMem (regionWords 0xFFF00000)) 0) mi' := by
  have hentries : entriesAt (wordMem (regionWords 0xFFF00000)) 0 = [⟨0x100000, 0xFFF00000, 1, 0⟩] := by
    decide
  have hsize : load32 (wordMem (regionWords 0xFFF00000)) (0 + 8) ≠ 0 := by decide
  obtain ⟨mi', hmi', -, hmapOf⟩ := parseMemoryMapEntries_entriesAt hsize (by rw [hentries]; decide)
    MemInfo.zero
  refine ⟨mi', hmi', fun hb => ?_⟩
  have hends := hmapOf.usableBounds_iff.mp hb
  rw [hentries] at hends
  rcases hends with hfit | htop
  · exact absurd hfit (by decide)
  · exact absurd htop (by decide)

end TuixOS
