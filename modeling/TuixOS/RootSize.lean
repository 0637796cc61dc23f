import TuixOS.MkfsRoundTrip
import TuixOS.MkfsLimits
import Mathlib.Order.Bounds.Defs

/-!
# The size of the root directory

`main` rounds the size of the root up to the next block behind its last byte. When the entries fill their
last block that is one block too many, and the directory has no such block (`root_size_iff`).
-/

namespace TuixOS.Mkfs

open Lib

variable {fs fs' : Fs} {junk : Junk} {files : List InFile}

/-- What `main` appends to the root: 16 bytes for ".", "..", and each file. -/
def rootBytes (files : List InFile) : List Byte := (dirents files).flatMap Dirent.bytes

theorem rootBytes_length (files : List InFile) : (rootBytes files).length = 16 * (files.length + 2) := by
  rw [rootBytes, flatMap_length fun de hde => mem_dirents_length hde, dirents_length]

/-- The size in the root's record is that of its blocks, and all of these are there. -/
structure RootSized (files : List InFile) (fs : Fs) : Prop where
  size : IsLeast {n | bSize ∣ n ∧ (rootBytes files).length ≤ n} (fs.image.inode 1).size.toNat
  blocks : ∀ fbn, fbn < (fs.image.inode 1).size.toNat / bSize →
    metaNum ≤ fs.image.bmap (fs.image.inode 1) fbn ∧
      fs.image.bmap (fs.image.inode 1) fbn < fs.freeblock.toNat

/-- The block behind the one that byte `s` would be in starts at the least multiple not below `s`, unless
`s` is a multiple itself. -/
theorem isLeast_next_block (s : Nat) :
    IsLeast {n | bSize ∣ n ∧ s ≤ n} ((s / bSize + 1) * bSize) ↔ ¬bSize ∣ s := by
  have hpos : 0 < bSize := by decide
  have hmod := Nat.div_add_mod s bSize
  have hlt := Nat.mod_lt s hpos
  have hmul : (s / bSize + 1) * bSize = bSize * (s / bSize) + bSize := by
    rw [Nat.mul_comm, Nat.mul_succ]
  constructor
  · rintro ⟨-, hleast⟩ hdvd
    have hle : (s / bSize + 1) * bSize ≤ s := hleast ⟨hdvd, le_rfl⟩
    omega
  · intro hdvd
    refine ⟨⟨Nat.dvd_mul_left _ _, by omega⟩, ?_⟩
    rintro n ⟨⟨k, rfl⟩, hn⟩
    have hne : s % bSize ≠ 0 := fun h0 => hdvd (Nat.dvd_of_mod_eq_zero h0)
    have hk : s / bSize < k := by
      by_contra hk
      have := Nat.mul_le_mul_left bSize (Nat.le_of_not_lt hk)
      omega
    rw [Nat.mul_comm]
    exact Nat.mul_le_mul_left _ hk

theorem Built.root_rounded (h : Built files fs) (hf : Finished fs fs') :
    (fs'.image.inode 1).size.toNat = ((rootBytes files).length / bSize + 1) * bSize := by
  rw [h.root_inode_size hf, rootBytes_length]

/-- **The root's size** is right just when the entries do not fill their last block. -/
theorem root_size_iff (hrun : mkfs junk files = .ok fs) (hinodes : files.length + 1 < inodesNum)
    (hblocks : ∀ x, .alloc x ∈ fs.log → x.toNat < fsSize) :
    RootSized files fs ↔ ¬32 ∣ files.length + 2 := by
  have hcount : files.length + 2 ≤ slotsNum := hinodes.trans (by decide : inodesNum < slotsNum)
  have hdvd : bSize ∣ (rootBytes files).length ↔ 32 ∣ files.length + 2 := by
    rw [rootBytes_length, show bSize = 16 * 32 from rfl]
    exact Nat.mul_dvd_mul_iff_left (by decide : 0 < 16)
  rcases mkfs_returns hcount hrun with ⟨-, fs₁, hbuilt, hf⟩ | ⟨-, hover⟩
  · have hsize := hbuilt.root_rounded hf
    rw [← hdvd]
    constructor
    · rintro ⟨hleast, -⟩
      rw [hsize] at hleast
      exact (isLeast_next_block _).mp hleast
    · intro hpart
      refine ⟨by rwa [hsize, isLeast_next_block], fun fbn hfbn => ?_⟩
      -- the last block is not full, so each block holds a byte of the directory
      have hbyte : fbn * bSize < fs₁.disk.size rootSlot := by
        have hmod : (rootBytes files).length % bSize ≠ 0 := fun h0 =>
          hpart (Nat.dvd_of_mod_eq_zero h0)
        rw [hsize, Nat.mul_div_cancel _ (by decide : 0 < bSize)] at hfbn
        rw [hbuilt.root_size, ← rootBytes_length]
        simp only [bSize] at hmod hfbn ⊢
        omega
      have hinv := hbuilt.steady.inv.disk
      obtain ⟨hbmap, hlow⟩ := hbuilt.bmap_eq (i := rootSlot) hf (d := fs.image.inode 1)
        (by rw [hbuilt.root_inode hf]) hbyte
      have hne : fs₁.disk.val (blockRef rootSlot fbn) ≠ 0 := by
        rw [metaNum_eq] at hlow
        omega
      refine ⟨hlow, ?_⟩
      rw [hbmap, hf.freeblock]
      exact (hinv.nums.lt hne).2
  · exact absurd (hblocks _ hover.alloc) (by decide)

theorem root_size_iff_one : ∃ fs, mkfs (fun _ _ _ => 0) [emptyFile] = .ok fs ∧
    RootSized [emptyFile] fs := by
  obtain ⟨fs₁, fs, hrun, -, hfinished⟩ := mkfs_room (fun _ _ _ => 0) [emptyFile]
    (by decide) (by decide) (by decide) (by decide)
  have hblocks : ∀ x, .alloc x ∈ fs.log → x.toNat < fsSize := fun x hx => hfinished.below _ hx
  exact ⟨fs, hrun, (root_size_iff hrun (by decide) hblocks).mpr (by decide)⟩

/-- With 30 files the entries are exactly one block, and the size is two. -/
theorem root_size_thirty : ∃ fs, mkfs (fun _ _ _ => 0) (List.replicate 30 emptyFile) = .ok fs ∧
    (∀ x, .alloc x ∈ fs.log → x.toNat < fsSize) ∧ ¬RootSized (List.replicate 30 emptyFile) fs := by
  have htotal : total (List.replicate 30 emptyFile) ≤ fsSize := by
    simp only [total, List.length_replicate, List.map_replicate, List.sum_replicate_nat]
    decide
  obtain ⟨fs₁, fs, hrun, hbuilt, hf⟩ := mkfs_room (fun _ _ _ => 0)
    (List.replicate 30 emptyFile) (by rw [List.length_replicate]; decide)
    (fun f hf => by rw [List.eq_of_mem_replicate hf]; decide)
    (fun f hf => by rw [List.eq_of_mem_replicate hf]; decide) htotal
  refine ⟨fs, hrun, fun x hx => hf.below _ hx, fun h => ?_⟩
  have hleast := h.size
  rw [hbuilt.root_rounded hf, isLeast_next_block, rootBytes_length, List.length_replicate] at hleast
  exact hleast (by decide)

end TuixOS.Mkfs
