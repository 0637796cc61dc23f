import TuixOS.MemoryMap
import TuixOS.Lib.Chain

/-!
# The tag walk on arbitrary data

The tag loop knows the end of the block by its end tag only: it does not read the total size in front of the
tags, and steps over a tag by whatever size that has. On any contents the headers it reads are those of a
chain of tags, and it stops when the chain does (`tag_walk_iff`).
-/

namespace TuixOS

open Lib

/-- The tag loop with a record of the headers it reads, that of the end tag among them. -/
def parseTagsRun (m : Mem) : Nat → Addr → MemInfo → Option (List Addr × MemInfo)
  | 0, _, _ => none
  | n + 1, tag, mi =>
    if load32 m tag = multibootTagTypeEnd then some ([tag], mi)
    else do
      let mi ← parseTag m tag mi
      let (headers, mi) ← parseTagsRun m n (tag + alignTag (load32 m (tag + 4))) mi
      return (tag :: headers, mi)

def parseMultiboot2Run (fuel : Nat) (m : Mem) (k : KernelSymbols) (magic addr : Word)
    (mi : MemInfo) : Option (List Addr × MemInfo) :=
  if magic ≠ multiboot2BootloaderMagic then some ([], mi)
  else do
    let (headers, mi) ← parseTagsRun m fuel (addr + 8) mi
    return (headers, parseKernelInfo k mi)

/-- The header at `a` lies in the block at `addr`, whose first word is its total size. -/
def InBlock (m : Mem) (addr a : Addr) : Prop := (a - addr).toNat + 8 ≤ (load32 m addr).toNat

/-- The parser returns, and has read headers inside the block only. -/
def WalkSafe (m : Mem) (k : KernelSymbols) (magic addr : Word) (mi : MemInfo) : Prop :=
  ∃ n headers mi', (∀ fuel, n ≤ fuel →
    parseMultiboot2Run fuel m k magic addr mi = some (headers, mi')) ∧
    ∀ a ∈ headers, InBlock m addr a

/-- Where the loop goes from a tag; there is nothing behind an end tag. -/
def nextTag (m : Mem) : Option Addr → Option Addr
  | none => none
  | some a =>
    if load32 m a = multibootTagTypeEnd then none else some (a + alignTag (load32 m (a + 4)))

/-- The tags from `a` on have the headers `hs`, up to an end tag. -/
def TagChain (m : Mem) (a : Addr) (hs : List Addr) : Prop :=
  Chain (nextTag m) none (some a) (hs.map some)

/-- A memory map at `a` has entries, and at most 32. -/
def MapReadable (m : Mem) (a : Addr) : Prop :=
  load32 m a = multibootTagTypeMmap → load32 m (a + 8) ≠ 0 ∧ (entriesAt m a).length ≤ 32

section Walk
variable {m : Mem} {a : Addr} {hs : List Addr}

theorem TagChain.ne_nil (h : TagChain m a hs) : hs ≠ [] := by
  rintro rfl
  exact Option.some_ne_none a h

theorem tagChain_cons {b : Addr} : TagChain m a (b :: hs) ↔ b = a ∧
    if load32 m a = multibootTagTypeEnd then hs = []
    else TagChain m (a + alignTag (load32 m (a + 4))) hs := by
  unfold TagChain
  rw [List.map_cons, Chain.cons_iff, Option.some_inj, eq_comm]
  refine and_congr_right fun hba => ?_
  subst hba
  rw [nextTag]
  split_ifs with hend
  · simp [Chain.nil_iff]
  · simp

theorem parseEntriesLoop_overrun {entrySize : Word} {n i : Nat} (entry : Addr) (mi : MemInfo)
    (hi : i ≤ 32) (h : 32 < i + n) : parseEntriesLoop m entrySize n i entry mi = none := by
  induction n generalizing i entry mi with
  | zero => omega
  | succ n ih =>
    rw [parseEntriesLoop]
    split_ifs with hlt
    · exact ih _ _ hlt (by omega)
    · rfl

theorem parseTag_isSome (m : Mem) (a : Addr) (mi : MemInfo) :
    (∃ mi', parseTag m a mi = some mi') ↔ MapReadable m a := by
  unfold parseTag MapReadable
  by_cases hmap : load32 m a = multibootTagTypeMmap
  · have hne : multibootTagTypeMmap ≠ multibootTagTypeBasicMeminfo := by decide
    simp only [hmap, if_neg hne, if_true, true_imp_iff]
    constructor
    · rintro ⟨mi', hmi'⟩
      unfold parseMemoryMapEntries at hmi'
      simp only at hmi'
      split_ifs at hmi' with h0
      refine ⟨h0, ?_⟩
      by_contra hlen
      rw [entriesAt, List.length_map, List.length_range] at hlen
      rw [parseEntriesLoop_overrun _ _ (Nat.zero_le 32) (by omega)] at hmi'
      exact absurd hmi' (by simp)
    · rintro ⟨hes, hcount⟩
      obtain ⟨mi', hmi', -⟩ := parseMemoryMapEntries_entriesAt hes hcount mi
      exact ⟨mi', hmi'⟩
  · refine iff_of_true ?_ fun h => absurd h hmap
    simp only
    split_ifs
    · exact ⟨_, rfl⟩
    · exact ⟨_, rfl⟩

/-- A run that ends has followed a chain of tags. -/
theorem parseTagsRun_chain {fuel : Nat} {mi mi' : MemInfo}
    (h : parseTagsRun m fuel a mi = some (hs, mi')) : TagChain m a hs ∧ ∀ b ∈ hs, MapReadable m b := by
  induction fuel generalizing a mi mi' hs with
  | zero => exact absurd h (by simp [parseTagsRun])
  | succ fuel ih =>
    rw [parseTagsRun] at h
    split_ifs at h with hend
    · obtain ⟨rfl, -⟩ := Prod.mk.inj (Option.some.inj h)
      refine ⟨tagChain_cons.mpr ⟨rfl, by rw [if_pos hend]⟩, fun b hb hmap => ?_⟩
      obtain rfl := List.mem_singleton.mp hb
      exact absurd (hend.symm.trans hmap) (by decide)
    · obtain ⟨mi₁, htag, hrest⟩ := Option.bind_eq_some_iff.mp h
      obtain ⟨⟨hs', mi₂⟩, hloop, hret⟩ := Option.bind_eq_some_iff.mp hrest
      obtain ⟨rfl, -⟩ := Prod.mk.inj (Option.some.inj hret)
      obtain ⟨hchain, hread⟩ := ih hloop
      refine ⟨tagChain_cons.mpr ⟨rfl, by rwa [if_neg hend]⟩, fun b hb => ?_⟩
      rcases List.mem_cons.mp hb with rfl | hb
      · exact (parseTag_isSome m b mi).mp ⟨mi₁, htag⟩
      · exact hread b hb

/-- A chain of tags is run through. -/
theorem TagChain.run (h : TagChain m a hs) (hread : ∀ b ∈ hs, MapReadable m b) (mi : MemInfo) :
    ∃ mi', ∀ fuel, hs.length ≤ fuel → parseTagsRun m fuel a mi = some (hs, mi') := by
  induction hs generalizing a mi with
  | nil => exact absurd rfl h.ne_nil
  | cons b hs ih =>
    obtain ⟨rfl, hrest⟩ := tagChain_cons.mp h
    by_cases hend : load32 m b = multibootTagTypeEnd
    · rw [if_pos hend] at hrest
      subst hrest
      refine ⟨mi, fun fuel hfuel => ?_⟩
      obtain ⟨fuel, rfl⟩ := Nat.exists_eq_add_of_le' hfuel
      rw [List.length_singleton, parseTagsRun, if_pos hend]
    · rw [if_neg hend] at hrest
      obtain ⟨mi₁, htag⟩ := (parseTag_isSome m b mi).mpr (hread b List.mem_cons_self)
      obtain ⟨mi', hloop⟩ := ih hrest (fun c hc => hread c (List.mem_cons_of_mem _ hc)) mi₁
      refine ⟨mi', fun fuel hfuel => ?_⟩
      obtain ⟨fuel, rfl⟩ := Nat.exists_eq_add_of_le' (Nat.le_trans (Nat.succ_le_succ (Nat.zero_le _)) hfuel)
      rw [parseTagsRun, if_neg hend, htag]
      simp only [Option.bind_eq_bind, Option.bind_some]
      rw [hloop fuel (Nat.le_of_succ_le_succ hfuel)]
      rfl

/-- The record is of the parser's own run: it adds the header of the end tag. -/
theorem parseTagsLoop_run (fuel : Nat) (mi : MemInfo) : parseTagsLoop m fuel a mi =
    (parseTagsRun m fuel a mi).map fun r => (r.1.dropLast, r.2) := by
  induction fuel generalizing a mi with
  | zero => rfl
  | succ fuel ih =>
    rw [parseTagsLoop, parseTagsRun]
    split_ifs with hend
    · rfl
    · cases htag : parseTag m a mi with
      | none => rfl
      | some mi₁ =>
        simp only [Option.bind_eq_bind, Option.bind_some, ih]
        cases hrun : parseTagsRun m fuel (a + alignTag (load32 m (a + 4))) mi₁ with
        | none => rfl
        | some r =>
          have hne := (parseTagsRun_chain hrun).1.ne_nil
          simp [List.dropLast_cons_of_ne_nil hne]

theorem parseMultiboot2Info_run (fuel : Nat) (m : Mem) (k : KernelSymbols) (magic addr : Word)
    (mi : MemInfo) : parseMultiboot2Info fuel m k magic addr mi =
      (parseMultiboot2Run fuel m k magic addr mi).map fun r => (r.1.dropLast, r.2) := by
  unfold parseMultiboot2Info parseMultiboot2Run
  split_ifs with hmagic
  · rfl
  · rw [parseTagsLoop_run]
    cases parseTagsRun m fuel (addr + 8) mi <;> rfl

/-- Tags are a multiple of 8 apart. -/
theorem TagChain.aligned {addr : Addr} (h : TagChain m a hs) (ha : (a - addr).toNat % 8 = 0) :
    ∀ b ∈ hs, (b - addr).toNat % 8 = 0 := by
  induction hs generalizing a with
  | nil => simp
  | cons b hs ih =>
    obtain ⟨rfl, hrest⟩ := tagChain_cons.mp h
    intro c hc
    rcases List.mem_cons.mp hc with rfl | hc
    · exact ha
    · split_ifs at hrest with hend
      · rw [hrest] at hc
        exact absurd hc List.not_mem_nil
      · refine ih hrest ?_ c hc
        have hstep := alignTag_toNat (load32 m (b + 4))
        have hsub : b + alignTag (load32 m (b + 4)) - addr =
            (b - addr) + alignTag (load32 m (b + 4)) := (sub_add_eq_add_sub b addr _).symm
        rw [hsub, BitVec.toNat_add]
        omega

theorem TagChain.nodup (h : TagChain m a hs) : hs.Nodup :=
  List.Nodup.of_map some (Chain.nodup h)

/-- Distinct headers inside the block are at most one for each 8 bytes. -/
theorem TagChain.length_le {addr : Addr} (h : TagChain m (addr + 8) hs)
    (hin : ∀ b ∈ hs, InBlock m addr b) : hs.length ≤ (load32 m addr).toNat / 8 := by
  have hstart : (addr + 8 - addr).toNat % 8 = 0 := by
    rw [BitVec.add_comm, BitVec.add_sub_cancel]
    rfl
  have halign := h.aligned hstart
  have hnodup : (hs.map fun b => (b - addr).toNat / 8).Nodup := by
    refine List.Nodup.map_on (fun b hb c hc heq => ?_) h.nodup
    have hb' := halign b hb
    have hc' := halign c hc
    have hsub : b - addr = c - addr := BitVec.eq_of_toNat_eq (by omega)
    rw [← BitVec.sub_add_cancel b addr, hsub, BitVec.sub_add_cancel]
  have hsubset : (hs.map fun b => (b - addr).toNat / 8) ⊆ List.range ((load32 m addr).toNat / 8) := by
    intro o ho
    obtain ⟨b, hb, rfl⟩ := List.mem_map.mp ho
    have hin' : (b - addr).toNat + 8 ≤ _ := hin b hb
    exact List.mem_range.mpr (by omega)
  have hlen := (List.subperm_of_subset hnodup hsubset).length_le
  rwa [List.length_map, List.length_range] at hlen

end Walk

/-- **The tag walk** ends and stays in the block just when the tags from offset 8 on form a chain up to an
end tag, with all headers inside the total size and memory maps that can be read. It then reads at most
one header for each 8 bytes of the block. -/
theorem tag_walk_iff (m : Mem) (k : KernelSymbols) (magic addr : Word) (mi : MemInfo) :
    (WalkSafe m k magic addr mi ↔ magic ≠ multiboot2BootloaderMagic ∨
      ∃ hs, TagChain m (addr + 8) hs ∧ ∀ a ∈ hs, InBlock m addr a ∧ MapReadable m a) ∧
    ∀ hs, TagChain m (addr + 8) hs → (∀ a ∈ hs, InBlock m addr a) →
      hs.length ≤ (load32 m addr).toNat / 8 := by
  refine ⟨?_, fun hs h hin => h.length_le hin⟩
  unfold WalkSafe parseMultiboot2Run
  by_cases hmagic : magic ≠ multiboot2BootloaderMagic
  · refine iff_of_true ⟨0, [], mi, fun fuel _ => if_pos hmagic, ?_⟩ (Or.inl hmagic)
    exact fun a ha => absurd ha List.not_mem_nil
  · simp only [hmagic, if_false, false_or]
    constructor
    · rintro ⟨n, hs, mi', hrun, hin⟩
      obtain ⟨⟨hs', mi₁⟩, hloop, hret⟩ := Option.bind_eq_some_iff.mp (hrun n le_rfl)
      obtain ⟨rfl, -⟩ := Prod.mk.inj (Option.some.inj hret)
      obtain ⟨hchain, hread⟩ := parseTagsRun_chain hloop
      exact ⟨hs', hchain, fun a ha => ⟨hin a ha, hread a ha⟩⟩
    · rintro ⟨hs, hchain, hok⟩
      obtain ⟨mi', hrun⟩ := hchain.run (fun b hb => (hok b hb).2) mi
      refine ⟨hs.length, hs, parseKernelInfo k mi', fun fuel hfuel => ?_, fun a ha => (hok a ha).1⟩
      rw [hrun fuel hfuel]
      rfl

/-- A tag of size 0 in front of the end tag. -/
def stuckWords : List Word := [24, 0, 1, 0, 0, 8]

theorem parseTagsRun_stuck (fuel : Nat) (mi : MemInfo) :
    parseTagsRun (wordMem stuckWords) fuel 8 mi = none := by
  induction fuel generalizing mi with
  | zero => rfl
  | succ fuel ih =>
    have htype : load32 (wordMem stuckWords) 8 = 1 := by decide
    have hnext : 8 + alignTag (load32 (wordMem stuckWords) (8 + 4)) = (8 : Addr) := by decide
    have hne : load32 (wordMem stuckWords) 8 ≠ multibootTagTypeEnd := by
      rw [htype]
      decide
    have htag : parseTag (wordMem stuckWords) 8 mi = some mi := by
      unfold parseTag
      rw [htype]
      rfl
    rw [parseTagsRun, if_neg hne, htag, hnext]
    simp only [Option.bind_eq_bind, Option.bind_some, ih, Option.bind_none]

/-- The walk does not get past it. -/
theorem tag_walk_stuck : ¬WalkSafe (wordMem stuckWords) ⟨0, 0, 0, 0, 0, 0, 0, 0, 0, 0x80200000⟩
    multiboot2BootloaderMagic 0 MemInfo.zero := by
  rintro ⟨n, hs, mi', hrun, -⟩
  have hcall := hrun n le_rfl
  have hloop : parseTagsRun (wordMem stuckWords) n (0 + 8) MemInfo.zero = none :=
    parseTagsRun_stuck n MemInfo.zero
  simp only [parseMultiboot2Run, ne_eq, not_true_eq_false, if_false, hloop] at hcall
  exact absurd hcall (by simp)

end TuixOS
