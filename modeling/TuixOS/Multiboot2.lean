import TuixOS.Mmu
import TuixOS.Lib.Tally
import Mathlib.Logic.Function.Basic

/-!
# The boot information: `kernel/sys/mulitiboot2.c`

The boot loader leaves a list of tags in memory, which `parse_multiboot2_info` decodes into the
global `mem_info`. The parser here returns `none` where the source does not return or has no
behaviour: a tag loop that runs out of fuel, an `entry_size` of 0, an entry beyond the 32 slots of
`memory_map`. The block is read only; it does not overlap `mem_info`.

Below the parser a block is a list of tags laid out in memory (`TagsAt`), and `parse_block` says
what decoding any such block does to `mem_info`.
-/

namespace TuixOS

open Lib

def multiboot2BootloaderMagic : Word := 0x36d76289

def multibootTagTypeEnd : Word := 0
def multibootTagTypeBasicMeminfo : Word := 4
def multibootTagTypeMmap : Word := 6

/-- A little-endian `uint64_t`. -/
def load64 (m : Mem) (a : Addr) : BitVec 64 := load32 m (a + 4) ++ load32 m a

/-- `struct multiboot_mmap_entry` -/
structure MmapEntry where
  addr : BitVec 64
  len : BitVec 64
  type : Word
  zero : Word
  deriving DecidableEq

/-- `*entry` -/
def loadEntry (m : Mem) (entry : Addr) : MmapEntry where
  addr := load64 m entry
  len := load64 m (entry + 8)
  type := load32 m (entry + 16)
  zero := load32 m (entry + 20)

/-- `struct system_memory_info` -/
structure MemInfo where
  memoryMap : Fin 32 → MmapEntry
  memoryMapCount : Word
  totalPhysicalMemory : BitVec 64
  totalAvailableMemory : BitVec 64
  firstUsableAddr : Word
  lastUsableAddr : Word
  kernelStartAddr : Word
  ktextStartAddr : Word
  ktextEndAddr : Word
  krodataAddr : Word
  krodataEndAddr : Word
  kdataStartAddr : Word
  kdataEndAddr : Word
  kbssStartAddr : Word
  kbssEndAddr : Word
  kernelEndAddr : Word
  memLower : Word
  memUpper : Word

/-- `mem_info` before the parser runs. -/
def MemInfo.zero : MemInfo :=
  ⟨fun _ => ⟨0, 0, 0, 0⟩, 0, 0, 0, 0, 0, 0, 0, 0, 0, 0, 0, 0, 0, 0, 0, 0, 0⟩

/-- The symbols the linker script defines around the kernel. -/
structure KernelSymbols where
  kernelStart : Word
  kernelTextStart : Word
  kernelTextEnd : Word
  kernelRodataStart : Word
  kernelRodataEnd : Word
  kernelDataStart : Word
  kernelDataEnd : Word
  kernelBssStart : Word
  kernelBssEnd : Word
  kernelEnd : Word

/-! ## The parser -/

/-- The body of the entry loop for the entry `e` in slot `i`. -/
def countEntry (i : Fin 32) (e : MmapEntry) (mi : MemInfo) : MemInfo :=
  let endAddr := e.addr + e.len
  let mi := { mi with memoryMap := Function.update mi.memoryMap i e }
  let mi := { mi with totalPhysicalMemory := mi.totalPhysicalMemory + e.len }
  if e.type = 1 then
    let mi := { mi with totalAvailableMemory := mi.totalAvailableMemory + e.len }
    if 0x100000 ≤ e.addr ∧ e.addr < 0xFFFFFFFF then
      let start32 := e.addr.setWidth 32
      let end32 := endAddr.setWidth 32
      let mi :=
        if mi.firstUsableAddr = 0 ∨ start32 < mi.firstUsableAddr then
          { mi with firstUsableAddr := start32 }
        else mi
      if end32 > mi.lastUsableAddr then { mi with lastUsableAddr := end32 } else mi
    else mi
  else mi

/-- The entry loop with `n` entries to go, the next one `i` at `entry`. -/
def parseEntriesLoop (m : Mem) (entrySize : Word) : Nat → Nat → Addr → MemInfo → Option MemInfo
  | 0, _, _, mi => some mi
  | n + 1, i, entry, mi =>
    if hi : i < 32 then
      parseEntriesLoop m entrySize n (i + 1) (entry + entrySize)
        (countEntry ⟨i, hi⟩ (loadEntry m entry) mi)
    else none

/-- What `parse_memory_map_entries` sets before its loop. -/
def resetStatistics (entryCount : Word) (mi : MemInfo) : MemInfo :=
  { mi with
    totalPhysicalMemory := 0
    totalAvailableMemory := 0
    firstUsableAddr := 0
    lastUsableAddr := 0
    memoryMapCount := entryCount }

def parseMemoryMapEntries (m : Mem) (mmap : Addr) (mi : MemInfo) : Option MemInfo :=
  let size := load32 m (mmap + 4)
  let entrySize := load32 m (mmap + 8)
  if entrySize = 0 then none
  else
    let entryCount := (size - 16) / entrySize
    parseEntriesLoop m entrySize entryCount.toNat 0 (mmap + 16) (resetStatistics entryCount mi)

def parseKernelInfo (k : KernelSymbols) (mi : MemInfo) : MemInfo :=
  { mi with
    kernelStartAddr := k.kernelStart
    ktextStartAddr := k.kernelTextStart
    ktextEndAddr := k.kernelTextEnd
    krodataAddr := k.kernelRodataStart
    krodataEndAddr := k.kernelRodataEnd
    kdataStartAddr := k.kernelDataStart
    kdataEndAddr := k.kernelDataEnd
    kbssStartAddr := k.kernelBssStart
    kbssEndAddr := k.kernelBssEnd
    kernelEndAddr := k.kernelEnd }

/-- The `switch` of the tag loop. -/
def parseTag (m : Mem) (tag : Addr) (mi : MemInfo) : Option MemInfo :=
  let type := load32 m tag
  if type = multibootTagTypeBasicMeminfo then
    some { mi with memLower := load32 m (tag + 8), memUpper := load32 m (tag + 12) }
  else if type = multibootTagTypeMmap then parseMemoryMapEntries m tag mi
  else some mi

/-- The size of a tag as the loop steps over it. -/
def alignTag (size : Word) : Word := (size + 7) &&& ~~~7#32

/-- The tag loop at `tag`. Next to `mem_info` it returns the tags its body ran on, which
`tag_count` counts. -/
def parseTagsLoop (m : Mem) : Nat → Addr → MemInfo → Option (List Addr × MemInfo)
  | 0, _, _ => none
  | n + 1, tag, mi =>
    if load32 m tag = multibootTagTypeEnd then some ([], mi)
    else do
      let mi ← parseTag m tag mi
      let (tags, mi) ← parseTagsLoop m n (tag + alignTag (load32 m (tag + 4))) mi
      return (tag :: tags, mi)

def parseMultiboot2Info (fuel : Nat) (m : Mem) (k : KernelSymbols) (magic addr : Word)
    (mi : MemInfo) : Option (List Addr × MemInfo) :=
  if magic ≠ multiboot2BootloaderMagic then some ([], mi)
  else do
    let (tags, mi) ← parseTagsLoop m fuel (addr + 8) mi
    return (tags, parseKernelInfo k mi)

/-! ## Blocks of tags -/

/-- A tag before the end tag. `other` is a tag that the parser skips. -/
inductive BootTag
  | basicMeminfo (size memLower memUpper : Word)
  | mmap (entrySize : Word) (entries : List MmapEntry)
  | other (type size : Word)

namespace BootTag

def type : BootTag → Word
  | basicMeminfo .. => multibootTagTypeBasicMeminfo
  | mmap .. => multibootTagTypeMmap
  | other type _ => type

def size : BootTag → ℕ
  | basicMeminfo size .. => size.toNat
  | mmap entrySize entries => 16 + entries.length * entrySize.toNat
  | other _ size => size.toNat

/-- The bytes up to the next tag. -/
def padded (t : BootTag) : ℕ := (t.size + 7) / 8 * 8

/-- A tag is as large as its header, an entry as large as its fields, and a memory map fits into
`memory_map`. -/
def WellFormed : BootTag → Prop
  | basicMeminfo size .. => 16 ≤ size.toNat
  | mmap entrySize entries => entries.length ≤ 32 ∧ 24 ≤ entrySize.toNat
  | other type size =>
    type ≠ multibootTagTypeEnd ∧ type ≠ multibootTagTypeBasicMeminfo ∧
      type ≠ multibootTagTypeMmap ∧ 8 ≤ size.toNat

/-- The fields after `type` and `size`, for the tag at `a`. -/
def BodyAt (m : Mem) (a : Addr) : BootTag → Prop
  | basicMeminfo _ memLower memUpper =>
    load32 m (a + 8) = memLower ∧ load32 m (a + 12) = memUpper
  | mmap entrySize entries =>
    load32 m (a + 8) = entrySize ∧ ∀ i (hi : i < entries.length),
      loadEntry m (a + 16 + BitVec.ofNat 32 (i * entrySize.toNat)) = entries[i]
  | other .. => True

def meminfo? : BootTag → Option (Word × Word)
  | basicMeminfo _ memLower memUpper => some (memLower, memUpper)
  | _ => none

def mmap? : BootTag → Option (List MmapEntry)
  | mmap _ entries => some entries
  | _ => none

end BootTag

/-- The tags laid out one after the other from `a` on, each padded to a multiple of 8, with an end
tag after them. -/
inductive TagsAt (m : Mem) : Addr → List BootTag → Prop
  | nil {a : Addr} (htype : load32 m a = multibootTagTypeEnd) : TagsAt m a []
  | cons {a : Addr} {t : BootTag} {ts : List BootTag} (hok : t.WellFormed)
      (htype : load32 m a = t.type) (hsize : (load32 m (a + 4)).toNat = t.size)
      (hbody : t.BodyAt m a) (hrest : TagsAt m (a + BitVec.ofNat 32 t.padded) ts) :
      TagsAt m a (t :: ts)

/-- Where the tags laid out from `a` on start. -/
def tagAddrs : Addr → List BootTag → List Addr
  | _, [] => []
  | a, t :: ts => a :: tagAddrs (a + BitVec.ofNat 32 t.padded) ts

def lastMeminfo (tags : List BootTag) : Option (Word × Word) :=
  (tags.filterMap BootTag.meminfo?).getLast?

def lastMmap (tags : List BootTag) : Option (List MmapEntry) :=
  (tags.filterMap BootTag.mmap?).getLast?

/-! ## What a memory map says -/

/-- Usable memory above 1 MiB that starts inside the 32-bit address space. -/
def MmapEntry.Usable (e : MmapEntry) : Prop :=
  e.type = 1 ∧ 0x100000 ≤ e.addr ∧ e.addr < 0xFFFFFFFF

instance (e : MmapEntry) : Decidable e.Usable := inferInstanceAs (Decidable (_ ∧ _))

def totalPhysical (es : List MmapEntry) : ℕ := (es.map fun e => e.len.toNat).sum % 2 ^ 64

def totalAvailable (es : List MmapEntry) : ℕ := totalPhysical (es.filter fun e => e.type = 1)

/-- The starts of the usable entries. -/
def usableStarts (es : List MmapEntry) : List ℕ :=
  (es.filter fun e => e.Usable).map fun e => e.addr.toNat

/-- The ends of the usable entries, as `uint32_t`. -/
def usableEnds (es : List MmapEntry) : List ℕ :=
  (es.filter fun e => e.Usable).map fun e => (e.addr + e.len).toNat % 2 ^ 32

/-! ## The entry loop -/

@[simp] theorem countEntry_total (i : Fin 32) (e : MmapEntry) (mi : MemInfo) :
    (countEntry i e mi).totalPhysicalMemory = mi.totalPhysicalMemory + e.len := by
  simp only [countEntry]
  split_ifs <;> rfl

@[simp] theorem countEntry_memoryMap (i : Fin 32) (e : MmapEntry) (mi : MemInfo) :
    (countEntry i e mi).memoryMap = Function.update mi.memoryMap i e := by
  simp only [countEntry]
  split_ifs <;> rfl

theorem countEntry_available (i : Fin 32) (e : MmapEntry) (mi : MemInfo) :
    (countEntry i e mi).totalAvailableMemory =
      if e.type = 1 then mi.totalAvailableMemory + e.len else mi.totalAvailableMemory := by
  simp only [countEntry]
  split_ifs <;> rfl

/-- An entry that is not usable leaves the bounds alone. -/
theorem countEntry_unusable (i : Fin 32) {e : MmapEntry} (hu : ¬e.Usable) (mi : MemInfo) :
    (countEntry i e mi).firstUsableAddr = mi.firstUsableAddr ∧
      (countEntry i e mi).lastUsableAddr = mi.lastUsableAddr := by
  by_cases h1 : e.type = 1
  · have h2 : ¬(0x100000 ≤ e.addr ∧ e.addr < 0xFFFFFFFF) := fun h2 => hu ⟨h1, h2⟩
    simp only [countEntry, if_pos h1, if_neg h2, and_self]
  · simp only [countEntry, if_neg h1, and_self]

theorem countEntry_usable (i : Fin 32) {e : MmapEntry} (hu : e.Usable) (mi : MemInfo) :
    (countEntry i e mi).firstUsableAddr =
        (if mi.firstUsableAddr = 0 ∨ e.addr.setWidth 32 < mi.firstUsableAddr then
          e.addr.setWidth 32 else mi.firstUsableAddr) ∧
      (countEntry i e mi).lastUsableAddr =
        if mi.lastUsableAddr < (e.addr + e.len).setWidth 32 then (e.addr + e.len).setWidth 32
        else mi.lastUsableAddr := by
  simp only [countEntry, if_pos hu.1, if_pos hu.2]
  constructor <;> split_ifs <;> rfl

/-- The fields an MMAP tag does not set. -/
def SameBasic (mi mi' : MemInfo) : Prop := mi'.memLower = mi.memLower ∧ mi'.memUpper = mi.memUpper

theorem countEntry_basic (i : Fin 32) (e : MmapEntry) (mi : MemInfo) :
    SameBasic mi (countEntry i e mi) ∧
      (countEntry i e mi).memoryMapCount = mi.memoryMapCount := by
  simp only [SameBasic, countEntry]
  split_ifs <;> exact ⟨⟨rfl, rfl⟩, rfl⟩

theorem totalPhysical_concat (es : List MmapEntry) (e : MmapEntry) :
    totalPhysical (es ++ [e]) = (totalPhysical es + e.len.toNat) % 2 ^ 64 := by
  simp only [totalPhysical, List.map_append, List.sum_append, List.map_cons, List.map_nil,
    List.sum_singleton]
  omega

theorem totalPhysical_perm {es es' : List MmapEntry} (h : es.Perm es') :
    totalPhysical es = totalPhysical es' := by
  rw [totalPhysical, totalPhysical, (h.map _).sum_eq]

theorem totalAvailable_concat (es : List MmapEntry) (e : MmapEntry) :
    totalAvailable (es ++ [e]) =
      if e.type = 1 then (totalAvailable es + e.len.toNat) % 2 ^ 64 else totalAvailable es := by
  by_cases h1 : e.type = 1
  · simp only [totalAvailable, List.filter_append, h1, decide_true, List.filter_cons_of_pos,
      List.filter_nil, if_true, totalPhysical_concat]
  · rw [if_neg h1, totalAvailable, List.filter_append, List.filter_cons_of_neg (by simpa using h1),
      List.filter_nil, List.append_nil, totalAvailable]

theorem usable_start_ne_zero {es : List MmapEntry} : 0 ∉ usableStarts es := by
  intro h
  obtain ⟨e, he, h0⟩ := List.mem_map.mp h
  have hu := of_decide_eq_true (List.mem_filter.mp he).2
  have hlow : 0x100000 ≤ e.addr.toNat := BitVec.le_def.mp hu.2.1
  omega

/-- The start of a usable entry fits into the `uint32_t` it is cast to. -/
theorem MmapEntry.Usable.start_toNat {e : MmapEntry} (hu : e.Usable) :
    (e.addr.setWidth 32).toNat = e.addr.toNat := by
  have hhigh : e.addr.toNat < 0xFFFFFFFF := BitVec.lt_def.mp hu.2.2
  rw [BitVec.toNat_setWidth]
  omega

/-- `mi` holds the entries `es` and the statistics of them, from a scan that `mi₀` started. -/
structure Scanned (mi₀ : MemInfo) (es : List MmapEntry) (mi : MemInfo) : Prop where
  basic : SameBasic mi₀ mi
  count : mi.memoryMapCount = mi₀.memoryMapCount
  slot : ∀ (i : Fin 32) (hi : i.val < es.length), mi.memoryMap i = es[i.val]
  total : mi.totalPhysicalMemory.toNat = totalPhysical es
  available : mi.totalAvailableMemory.toNat = totalAvailable es
  first : mi.firstUsableAddr.toNat = least (usableStarts es)
  last : mi.lastUsableAddr.toNat = greatest (usableEnds es)

theorem scanned_reset (entryCount : Word) (mi : MemInfo) :
    Scanned (resetStatistics entryCount mi) [] (resetStatistics entryCount mi) where
  basic := ⟨rfl, rfl⟩
  count := rfl
  slot := by simp
  total := rfl
  available := rfl
  first := by simp [resetStatistics, usableStarts]
  last := by simp [resetStatistics, usableEnds]

theorem Scanned.countEntry {mi₀ mi : MemInfo} {es : List MmapEntry} (h : Scanned mi₀ es mi)
    {i : Fin 32} (hi : i.val = es.length) (e : MmapEntry) :
    Scanned mi₀ (es ++ [e]) (countEntry i e mi) where
  basic := by
    obtain ⟨h1, h2⟩ := (countEntry_basic i e mi).1
    exact ⟨h1.trans h.basic.1, h2.trans h.basic.2⟩
  count := (countEntry_basic i e mi).2.trans h.count
  slot := by
    intro j hj
    rw [countEntry_memoryMap, Function.update_apply]
    split_ifs with hji
    · subst hji
      simp [hi]
    · have hne : j.val ≠ es.length := fun he => hji (Fin.ext (he.trans hi.symm))
      have hlt : j.val < es.length := by
        rw [List.length_append, List.length_singleton] at hj
        omega
      rw [List.getElem_append_left hlt]
      exact h.slot j hlt
  total := by
    rw [countEntry_total, BitVec.toNat_add, h.total, totalPhysical_concat]
  available := by
    rw [countEntry_available, totalAvailable_concat]
    split_ifs
    · rw [BitVec.toNat_add, h.available]
    · exact h.available
  first := by
    by_cases hu : e.Usable
    · have hcat : usableStarts (es ++ [e]) = usableStarts es ++ [e.addr.toNat] := by
        simp [usableStarts, hu]
      rw [(countEntry_usable i hu mi).1, hcat, least_concat usable_start_ne_zero, ← h.first,
        ← hu.start_toNat]
      have hzero : mi.firstUsableAddr = 0 ↔ mi.firstUsableAddr.toNat = 0 := BitVec.toNat_eq
      simp only [BitVec.lt_def, hzero]
      split_ifs <;> rfl
    · have hcat : usableStarts (es ++ [e]) = usableStarts es := by
        simp [usableStarts, hu]
      rw [(countEntry_unusable i hu mi).1, hcat, h.first]
  last := by
    by_cases hu : e.Usable
    · have hcat : usableEnds (es ++ [e]) =
          usableEnds es ++ [((e.addr + e.len).setWidth 32).toNat] := by
        simp [usableEnds, hu]
      rw [(countEntry_usable i hu mi).2, hcat, greatest_concat, ← h.last]
      simp only [BitVec.lt_def]
      split_ifs <;> rfl
    · have hcat : usableEnds (es ++ [e]) = usableEnds es := by
        simp [usableEnds, hu]
      rw [(countEntry_unusable i hu mi).2, hcat, h.last]

/-- The entries `rest` lie from `entry` on, `entry_size` apart. -/
theorem parseEntriesLoop_scanned (m : Mem) (entrySize : Word) {mi₀ : MemInfo} (rest : List MmapEntry) :
    ∀ (entry : Addr) {es : List MmapEntry} {mi : MemInfo}, Scanned mi₀ es mi →
      es.length + rest.length ≤ 32 →
      (∀ i (hi : i < rest.length),
        loadEntry m (entry + BitVec.ofNat 32 (i * entrySize.toNat)) = rest[i]) →
      ∃ mi', parseEntriesLoop m entrySize rest.length es.length entry mi = some mi' ∧
        Scanned mi₀ (es ++ rest) mi' := by
  induction rest with
  | nil =>
    intro entry es mi h _ _
    exact ⟨mi, rfl, by rwa [List.append_nil]⟩
  | cons e rest ih =>
    intro entry es mi h hlen hat
    rw [List.length_cons] at hlen
    have hi : es.length < 32 := by omega
    have he : loadEntry m entry = e := by
      have := hat 0 (by simp)
      rwa [Nat.zero_mul, BitVec.add_zero] at this
    have hstep := h.countEntry (i := ⟨es.length, hi⟩) rfl e
    have hrest : ∀ i (hi : i < rest.length),
        loadEntry m (entry + entrySize + BitVec.ofNat 32 (i * entrySize.toNat)) = rest[i] := by
      intro i hi
      have := hat (i + 1) (by simpa using hi)
      rw [List.getElem_cons_succ] at this
      rw [← this]
      congr 1
      apply BitVec.eq_of_toNat_eq
      simp only [BitVec.toNat_add, BitVec.toNat_ofNat, Nat.add_mul, Nat.one_mul]
      omega
    obtain ⟨mi', hmi', hscan⟩ :=
      ih _ hstep (by rw [List.length_append, List.length_singleton]; omega) hrest
    refine ⟨mi', ?_, by simpa using hscan⟩
    rw [List.length_cons, parseEntriesLoop, dif_pos hi, he]
    rwa [List.length_append, List.length_singleton] at hmi'

/-- `mi` holds the memory map `es` and its statistics. -/
structure MapOf (es : List MmapEntry) (mi : MemInfo) : Prop where
  count : mi.memoryMapCount.toNat = es.length
  slot : ∀ (i : Fin 32) (hi : i.val < es.length), mi.memoryMap i = es[i.val]
  total : mi.totalPhysicalMemory.toNat = totalPhysical es
  available : mi.totalAvailableMemory.toNat = totalAvailable es
  first : mi.firstUsableAddr.toNat = least (usableStarts es)
  last : mi.lastUsableAddr.toNat = greatest (usableEnds es)

/-- The two have the same memory map and statistics. -/
structure SameMap (mi mi' : MemInfo) : Prop where
  memoryMap : mi'.memoryMap = mi.memoryMap
  memoryMapCount : mi'.memoryMapCount = mi.memoryMapCount
  total : mi'.totalPhysicalMemory = mi.totalPhysicalMemory
  available : mi'.totalAvailableMemory = mi.totalAvailableMemory
  first : mi'.firstUsableAddr = mi.firstUsableAddr
  last : mi'.lastUsableAddr = mi.lastUsableAddr

/-- The entries that a tag's `size` and `entry_size` ask for. -/
def entriesAt (m : Mem) (mmap : Addr) : List MmapEntry :=
  (List.range ((load32 m (mmap + 4) - 16) / load32 m (mmap + 8)).toNat).map fun k =>
    loadEntry m (mmap + 16 + BitVec.ofNat 32 (k * (load32 m (mmap + 8)).toNat))

theorem parseMemoryMapEntries_entriesAt {m : Mem} {mmap : Addr} (hes : load32 m (mmap + 8) ≠ 0)
    (hcount : (entriesAt m mmap).length ≤ 32) (mi : MemInfo) :
    ∃ mi', parseMemoryMapEntries m mmap mi = some mi' ∧ SameBasic mi mi' ∧
      MapOf (entriesAt m mmap) mi' := by
  have hlen : (entriesAt m mmap).length =
      ((load32 m (mmap + 4) - 16) / load32 m (mmap + 8)).toNat := by
    rw [entriesAt, List.length_map, List.length_range]
  obtain ⟨mi', hmi', hscan⟩ := parseEntriesLoop_scanned m (load32 m (mmap + 8))
    (entriesAt m mmap) (mmap + 16)
    (scanned_reset ((load32 m (mmap + 4) - 16) / load32 m (mmap + 8)) mi) (by simpa using hcount)
    fun i hi => by simp [entriesAt]
  refine ⟨mi', ?_, hscan.basic, ?_, hscan.slot, hscan.total, hscan.available, hscan.first, hscan.last⟩
  · rw [hlen] at hmi'
    exact (if_neg hes).trans hmi'
  · rw [hscan.count, hlen]
    rfl

theorem parseMemoryMapEntries_eq {m : Mem} {a : Addr} {entrySize : Word} {es : List MmapEntry}
    (hok : (BootTag.mmap entrySize es).WellFormed)
    (hsize : (load32 m (a + 4)).toNat = (BootTag.mmap entrySize es).size)
    (hbody : (BootTag.mmap entrySize es).BodyAt m a) (mi : MemInfo) :
    ∃ mi', parseMemoryMapEntries m a mi = some mi' ∧ SameBasic mi mi' ∧ MapOf es mi' := by
  obtain ⟨hlen, hentry⟩ := hok
  obtain ⟨hes, hat⟩ := hbody
  have hne : entrySize ≠ 0 := by
    rintro rfl
    exact absurd hentry (by decide)
  have hcount : ((load32 m (a + 4) - 16) / entrySize).toNat = es.length := by
    have hsub : (load32 m (a + 4) - 16).toNat = es.length * entrySize.toNat := by
      have hlt := (load32 m (a + 4)).isLt
      have h16 : (16 : Word).toNat = 16 := rfl
      rw [BootTag.size] at hsize
      rw [BitVec.toNat_sub, h16, hsize]
      omega
    rw [BitVec.toNat_udiv, hsub, Nat.mul_div_cancel _ (by omega)]
  have hentries : entriesAt m a = es := by
    refine List.ext_getElem ?_ fun i _ hi => ?_
    · rw [entriesAt, hes, List.length_map, List.length_range, hcount]
    · simp only [entriesAt, List.getElem_map, List.getElem_range, hes]
      exact hat i hi
  rw [← hentries]
  exact parseMemoryMapEntries_entriesAt (by rwa [hes]) (by rwa [hentries]) mi

/-! ## The tag loop -/

/-- What decoding does to the fields: `meminfo` and `mmap` are what the tags say last, if they say
anything. -/
structure Decoded (meminfo : Option (Word × Word)) (mmap : Option (List MmapEntry))
    (mi mi' : MemInfo) : Prop where
  basic : (mi'.memLower, mi'.memUpper) = meminfo.getD (mi.memLower, mi.memUpper)
  map : ∀ es, mmap = some es → MapOf es mi'
  noMap : mmap = none → SameMap mi mi'

theorem MapOf.same {es : List MmapEntry} {mi mi' : MemInfo} (h : MapOf es mi)
    (hsame : SameMap mi mi') : MapOf es mi' := by
  obtain ⟨h1, h2, h3, h4, h5, h6⟩ := hsame
  constructor
  · rw [h2, h.count]
  · rw [h1]
    exact h.slot
  · rw [h3, h.total]
  · rw [h4, h.available]
  · rw [h5, h.first]
  · rw [h6, h.last]

theorem SameMap.refl (mi : MemInfo) : SameMap mi mi := ⟨rfl, rfl, rfl, rfl, rfl, rfl⟩

theorem SameMap.trans {mi mi' mi'' : MemInfo} (h : SameMap mi mi') (h' : SameMap mi' mi'') :
    SameMap mi mi'' where
  memoryMap := h'.memoryMap.trans h.memoryMap
  memoryMapCount := h'.memoryMapCount.trans h.memoryMapCount
  total := h'.total.trans h.total
  available := h'.available.trans h.available
  first := h'.first.trans h.first
  last := h'.last.trans h.last

/-- What later tags say replaces what earlier ones say. -/
theorem Decoded.trans {b b' : Option (Word × Word)} {l l' : Option (List MmapEntry)}
    {mi mi' mi'' : MemInfo} (h : Decoded b l mi mi') (h' : Decoded b' l' mi' mi'') :
    Decoded (b' <|> b) (l' <|> l) mi mi'' where
  basic := by
    rw [h'.basic, h.basic]
    cases b' <;> rfl
  map := by
    intro es hes
    cases l' with
    | none => exact (h.map es hes).same (h'.noMap rfl)
    | some es' => exact h'.map es hes
  noMap := by
    intro hnone
    cases l' with
    | none => exact (h.noMap hnone).trans (h'.noMap rfl)
    | some es' => cases hnone

theorem lastMeminfo_cons (t : BootTag) (ts : List BootTag) :
    lastMeminfo (t :: ts) = (lastMeminfo ts <|> t.meminfo?) := by
  cases h : t.meminfo? <;> cases h' : (ts.filterMap BootTag.meminfo?).getLast? <;>
    simp [lastMeminfo, List.getLast?_cons, h, h']

theorem lastMmap_cons (t : BootTag) (ts : List BootTag) :
    lastMmap (t :: ts) = (lastMmap ts <|> t.mmap?) := by
  cases h : t.mmap? <;> cases h' : (ts.filterMap BootTag.mmap?).getLast? <;>
    simp [lastMmap, List.getLast?_cons, h, h']

theorem BootTag.WellFormed.type_ne {t : BootTag} (h : t.WellFormed) :
    t.type ≠ multibootTagTypeEnd := by
  cases t with
  | basicMeminfo => exact (by decide : multibootTagTypeBasicMeminfo ≠ multibootTagTypeEnd)
  | mmap => exact (by decide : multibootTagTypeMmap ≠ multibootTagTypeEnd)
  | other => exact h.1

theorem parseTag_decoded {m : Mem} {a : Addr} {t : BootTag} (hok : t.WellFormed)
    (htype : load32 m a = t.type) (hsize : (load32 m (a + 4)).toNat = t.size)
    (hbody : t.BodyAt m a) (mi : MemInfo) :
    ∃ mi', parseTag m a mi = some mi' ∧ Decoded t.meminfo? t.mmap? mi mi' := by
  rw [parseTag]
  cases t with
  | basicMeminfo size memLower memUpper =>
    refine ⟨_, if_pos htype, Prod.ext hbody.1 hbody.2, by simp [BootTag.mmap?], fun _ => ?_⟩
    exact ⟨rfl, rfl, rfl, rfl, rfl, rfl⟩
  | mmap entrySize entries =>
    obtain ⟨mi', hmi', hbasic, hmap⟩ := parseMemoryMapEntries_eq hok hsize hbody mi
    refine ⟨mi', ?_, ?_, ?_, by simp [BootTag.mmap?]⟩
    · have hne : load32 m a ≠ multibootTagTypeBasicMeminfo := by
        rw [htype]
        exact (by decide : multibootTagTypeMmap ≠ multibootTagTypeBasicMeminfo)
      simp only [if_neg hne]
      exact (if_pos htype).trans hmi'
    · exact Prod.ext hbasic.1 hbasic.2
    · intro es hes
      cases hes
      exact hmap
  | other type size =>
    refine ⟨mi, ?_, rfl, by simp [BootTag.mmap?], fun _ => SameMap.refl mi⟩
    simp only [htype, BootTag.type, if_neg hok.2.1, if_neg hok.2.2.1]

theorem alignTag_toNat (size : Word) : (alignTag size).toNat = (size.toNat + 7) % 2 ^ 32 / 8 * 8 := by
  have hmask : ∀ a : Word, (a &&& 0xFFFFFFF8#32).toNat = a.toNat / 8 * 8 := by
    intro a
    have h : a &&& 0xFFFFFFF8#32 = (a >>> 3) <<< 3 := by
      ext i hi
      interval_cases i <;> simp
    have := a.isLt
    rw [h]
    simp only [BitVec.toNat_shiftLeft, BitVec.toNat_ushiftRight, Nat.shiftRight_eq_div_pow,
      Nat.shiftLeft_eq, Nat.reducePow]
    omega
  have h7 : (7 : Word).toNat = 7 := rfl
  refine (hmask _).trans ?_
  rw [BitVec.toNat_add, h7]

theorem alignTag_eq {t : BootTag} {size : Word} (hsize : size.toNat = t.size) :
    alignTag size = BitVec.ofNat 32 t.padded := by
  apply BitVec.eq_of_toNat_eq
  rw [alignTag_toNat, BootTag.padded, ← hsize, BitVec.toNat_ofNat]
  omega

/-- The loop runs its body on each tag of the block, in order, and stops at the end tag. -/
theorem parse_block {m : Mem} {a : Addr} {tags : List BootTag} (h : TagsAt m a tags) :
    ∀ mi, ∃ mi', Decoded (lastMeminfo tags) (lastMmap tags) mi mi' ∧
      ∀ fuel, tags.length < fuel → parseTagsLoop m fuel a mi = some (tagAddrs a tags, mi') := by
  induction h with
  | nil htype =>
    intro mi
    refine ⟨mi, ⟨rfl, by simp [lastMmap], fun _ => SameMap.refl mi⟩, ?_⟩
    intro fuel hfuel
    obtain ⟨n, rfl⟩ := Nat.exists_eq_add_of_lt hfuel
    rw [parseTagsLoop, if_pos htype]
    rfl
  | @cons a t ts hok htype hsize hbody _ ih =>
    intro mi
    obtain ⟨mi₁, htag, hdec₁⟩ := parseTag_decoded hok htype hsize hbody mi
    obtain ⟨mi', hdec, hloop⟩ := ih mi₁
    refine ⟨mi', ?_, fun fuel hfuel => ?_⟩
    · rw [lastMeminfo_cons, lastMmap_cons]
      exact hdec₁.trans hdec
    · obtain ⟨n, rfl⟩ : ∃ n, fuel = n + 1 := ⟨fuel - 1, by omega⟩
      have hne : load32 m a ≠ multibootTagTypeEnd := htype ▸ hok.type_ne
      rw [parseTagsLoop, if_neg hne, htag, alignTag_eq hsize]
      simp only [Option.bind_eq_bind, Option.bind_some]
      rw [hloop n (by rw [List.length_cons] at hfuel; omega)]
      rfl

theorem parseMultiboot2Info_eq {m : Mem} {addr : Word} {tags : List BootTag}
    (h : TagsAt m (addr + 8) tags) (k : KernelSymbols) (mi : MemInfo) :
    ∃ mi₁, Decoded (lastMeminfo tags) (lastMmap tags) mi mi₁ ∧ ∀ fuel, tags.length < fuel →
      parseMultiboot2Info fuel m k multiboot2BootloaderMagic addr mi =
        some (tagAddrs (addr + 8) tags, parseKernelInfo k mi₁) := by
  obtain ⟨mi₁, hdec, hloop⟩ := parse_block h mi
  refine ⟨mi₁, hdec, fun fuel hfuel => ?_⟩
  rw [parseMultiboot2Info, if_neg (fun hne => hne rfl), hloop fuel hfuel]
  rfl

/-- `parse_kernel_info` sets none of the fields that tags set. -/
theorem Decoded.kernelInfo {b : Option (Word × Word)} {l : Option (List MmapEntry)}
    {mi mi' : MemInfo} (h : Decoded b l mi mi') (k : KernelSymbols) :
    Decoded b l mi (parseKernelInfo k mi') where
  basic := h.basic
  map es hes := (h.map es hes).same ⟨rfl, rfl, rfl, rfl, rfl, rfl⟩
  noMap hnone := (h.noMap hnone).trans ⟨rfl, rfl, rfl, rfl, rfl, rfl⟩

/-! ## The order of the entries -/

/-- The second tag is the first with its entries in another order, if it is a memory map. -/
inductive Reordered : BootTag → BootTag → Prop
  | mmap (entrySize : Word) {es es' : List MmapEntry} (h : es.Perm es') :
      Reordered (.mmap entrySize es) (.mmap entrySize es')
  | same (t : BootTag) : Reordered t t

theorem Reordered.mmap? {t t' : BootTag} (h : Reordered t t') :
    Option.Rel List.Perm t.mmap? t'.mmap? := by
  cases h with
  | mmap entrySize hperm => exact Option.Rel.some hperm
  | same =>
    cases t.mmap? with
    | none => exact Option.Rel.none
    | some es => exact Option.Rel.some (List.Perm.refl es)

theorem rel_orElse {l l' o o' : Option (List MmapEntry)} (h : Option.Rel List.Perm l l')
    (h' : Option.Rel List.Perm o o') : Option.Rel List.Perm (l <|> o) (l' <|> o') := by
  cases h with
  | some hperm => exact Option.Rel.some hperm
  | none => exact h'

theorem lastMmap_reordered {tags tags' : List BootTag} (h : List.Forall₂ Reordered tags tags') :
    Option.Rel List.Perm (lastMmap tags) (lastMmap tags') := by
  induction h with
  | nil => exact Option.Rel.none
  | cons ht _ ih =>
    rw [lastMmap_cons, lastMmap_cons]
    exact rel_orElse ih ht.mmap?

/-- The statistics that do not depend on the order of the entries. -/
structure SameStatistics (mi mi' : MemInfo) : Prop where
  total : mi'.totalPhysicalMemory = mi.totalPhysicalMemory
  available : mi'.totalAvailableMemory = mi.totalAvailableMemory
  first : mi'.firstUsableAddr = mi.firstUsableAddr
  last : mi'.lastUsableAddr = mi.lastUsableAddr

theorem MapOf.perm {es es' : List MmapEntry} {mi mi' : MemInfo} (h : MapOf es mi)
    (h' : MapOf es' mi') (hperm : es.Perm es') : SameStatistics mi mi' := by
  have hstart : (usableStarts es).Perm (usableStarts es') := (hperm.filter _).map _
  have hend : (usableEnds es).Perm (usableEnds es') := (hperm.filter _).map _
  constructor <;> apply BitVec.eq_of_toNat_eq
  · rw [h.total, h'.total, totalPhysical_perm hperm]
  · rw [h.available, h'.available]
    exact (totalPhysical_perm (hperm.filter _)).symm
  · rw [h.first, h'.first, least_perm hstart]
  · rw [h.last, h'.last, greatest_perm hend]

theorem Decoded.reordered {b b' : Option (Word × Word)} {l l' : Option (List MmapEntry)}
    {mi mi₁ mi₂ : MemInfo} (h : Decoded b l mi mi₁) (h' : Decoded b' l' mi mi₂)
    (hrel : Option.Rel List.Perm l l') : SameStatistics mi₁ mi₂ := by
  cases hrel with
  | some hperm => exact (h.map _ rfl).perm (h'.map _ rfl) hperm
  | none =>
    have h1 := h.noMap rfl
    have h2 := h'.noMap rfl
    exact ⟨h2.total.trans h1.total.symm, h2.available.trans h1.available.symm,
      h2.first.trans h1.first.symm, h2.last.trans h1.last.symm⟩

/-! ## Decoding -/

/-- **Boot-tag decoding.** On every block of well-formed tags the parser returns, has run its body
on exactly the tags before the end tag, in order, and leaves `mem_info` as the last tags of each
kind say; a block with the entries of its memory maps in another order has the same statistics. -/
theorem boot_tag_decoding {m : Mem} {addr : Word} {tags : List BootTag}
    (h : TagsAt m (addr + 8) tags) (k : KernelSymbols) (mi : MemInfo) :
    ∃ mi', (∀ fuel, tags.length < fuel →
        parseMultiboot2Info fuel m k multiboot2BootloaderMagic addr mi =
          some (tagAddrs (addr + 8) tags, mi')) ∧
      Decoded (lastMeminfo tags) (lastMmap tags) mi mi' ∧
      ∀ m' addr' tags', TagsAt m' (addr' + 8) tags' → List.Forall₂ Reordered tags tags' →
        ∃ mi'', SameStatistics mi' mi'' ∧ ∀ fuel, tags'.length < fuel →
          parseMultiboot2Info fuel m' k multiboot2BootloaderMagic addr' mi =
            some (tagAddrs (addr' + 8) tags', mi'') := by
  obtain ⟨mi₁, hdec, hparse⟩ := parseMultiboot2Info_eq h k mi
  refine ⟨_, hparse, hdec.kernelInfo k, fun m' addr' tags' h' hre => ?_⟩
  obtain ⟨mi₂, hdec', hparse'⟩ := parseMultiboot2Info_eq h' k mi
  refine ⟨_, ?_, hparse'⟩
  exact (hdec.kernelInfo k).reordered (hdec'.kernelInfo k) (lastMmap_reordered hre)

/-- The words `ws` from address 0 on. -/
def wordMem (ws : List Word) : Mem := fun x => byteOf (ws.getD (x.toNat / 4) 0) (x.toNat % 4)

/-- A block with the sizes of low and high memory and a memory map of two usable regions. -/
def twoTagWords : List Word :=
  [88, 0, 4, 16, 640, 129920, 6, 64, 24, 0, 0, 0, 0x9FC00, 0, 1, 0, 0x100000, 0, 0x7EE0000, 0, 1, 0,
    0, 8]

theorem boot_tag_decoding_two_tags : ∃ mi',
    (∀ fuel, 2 < fuel →
      parseMultiboot2Info fuel (wordMem twoTagWords) ⟨0, 0, 0, 0, 0, 0, 0, 0, 0, 0x80200000⟩
        multiboot2BootloaderMagic 0 MemInfo.zero = some ([8, 24], mi')) ∧
      Decoded (some (640, 129920)) (some [⟨0, 0x9FC00, 1, 0⟩, ⟨0x100000, 0x7EE0000, 1, 0⟩])
        MemInfo.zero mi' := by
  have hblock : TagsAt (wordMem twoTagWords) (0 + 8)
      [.basicMeminfo 16 640 129920,
        .mmap 24 [⟨0, 0x9FC00, 1, 0⟩, ⟨0x100000, 0x7EE0000, 1, 0⟩]] := by
    refine .cons (by decide : 16 ≤ (16 : Word).toNat) (by decide) (by decide)
      ⟨by decide, by decide⟩ ?_
    refine .cons ⟨by decide, by decide⟩ (by decide) (by decide) ⟨by decide, ?_⟩ (.nil (by decide))
    intro i hi
    have hcases : i = 0 ∨ i = 1 := by
      simp only [List.length_cons, List.length_nil] at hi
      omega
    rcases hcases with rfl | rfl <;> decide +revert
  obtain ⟨mi', hparse, hdec, -⟩ :=
    boot_tag_decoding hblock ⟨0, 0, 0, 0, 0, 0, 0, 0, 0, 0x80200000⟩ MemInfo.zero
  exact ⟨mi', hparse, hdec⟩

end TuixOS
