import TuixOS.MkfsRun

/-!
# The limits of `mkfs`

`main` bounds the size of a file and the bits of the bitmap, but neither the blocks of the disk nor the
inodes of the table. A run stays on the disk just when the files and the directory fit there
(`blocks_on_disk_iff`), and in the table just when there are at most 198 files (`inode_table_iff`).
-/

namespace TuixOS.Mkfs

open Lib

variable {fs fs' : Fs} {junk : Junk} {files : List InFile}

/-! ## The blocks -/

/-- **The disk** holds every block that a run hands out, just when it has room for the directory and
the files. -/
theorem blocks_on_disk_iff (hrun : mkfs junk files = .ok fs) (hcount : files.length ≤ 214) :
    (∀ x, .alloc x ∈ fs.log → x.toNat < fsSize) ↔ total files ≤ fsSize := by
  have hslots : files.length + 2 ≤ slotsNum := Nat.add_le_add_right hcount 2
  constructor
  · intro hdisk
    rcases mkfs_returns hslots hrun with ⟨htotal, -⟩ | ⟨-, hover⟩
    · exact htotal
    · exact absurd (hdisk _ hover.alloc) (by decide)
  · intro htotal x hx
    rcases mkfs_returns hslots hrun with ⟨-, fs₁, -, hfinished⟩ | ⟨hfull, -⟩
    · exact hfinished.below _ hx
    · omega

/-- A file of `n` blocks. -/
def blocksFile (n : Nat) : InFile where
  name := [0x62]
  chunks := List.replicate n (List.replicate bSize 0)
  name_ne := by decide
  chunks_le c hc := by
    rw [List.eq_of_mem_replicate hc, List.length_replicate]
    exact ⟨by decide, le_rfl⟩

theorem blocksFile_length (n : Nat) : (blocksFile n).bytes.length = n * bSize := by
  simp [InFile.bytes, blocksFile]

theorem blocks_on_disk_iff_one : ∃ fs, mkfs (fun _ _ _ => 0) [blocksFile 2] = .ok fs ∧
    ∀ x, .alloc x ∈ fs.log → x.toNat < fsSize := by
  have htotal : total [blocksFile 2] ≤ fsSize := by
    simp only [total, List.map_cons, List.map_nil, blocksFile_length]
    decide
  obtain ⟨fs₁, fs, hrun, -, -⟩ := mkfs_room (fun _ _ _ => 0) [blocksFile 2]
    (by decide) (fun f hf => by rw [List.mem_singleton.mp hf]; decide)
    (fun f hf => by rw [List.mem_singleton.mp hf, blocksFile_length]; decide) htotal
  exact ⟨fs, hrun, (blocks_on_disk_iff hrun (by decide)).mpr htotal⟩

theorem finish_returns (junk : Junk) (h : fs.freeblock.toNat < bpb) : ∃ fs', finish junk fs = .ok fs' := by
  have hread := Fs.Goes.rsect fs (iblock 1 fs.sb) (junk .rinode fs.log)
  unfold finish
  simp only
  generalize hfs : winode junk 1 _ (rinode junk 1 fs).2 = fs'
  have hgo := hread.trans (hfs ▸ Fs.Goes.winode _ junk 1 _ : (rinode junk 1 fs).2.Goes 0 fs')
  obtain ⟨d, hd, hfree⟩ := hgo.freeblock
  obtain rfl : d = 0 := by omega
  rw [BitVec.add_zero] at hfree
  rw [hfree]
  exact ⟨_, if_pos h⟩

/-- Files that leave no block: with the directory they take 941. -/
def fullDisk : List InFile := List.replicate 6 (blocksFile 140) ++ [blocksFile 93]

def oneByte : InFile := ⟨[0x63], [[0]], by decide, by decide⟩

theorem total_blocksFiles (m n k : Nat) :
    total (List.replicate m (blocksFile n) ++ [blocksFile k]) =
      metaNum + blocksOf (16 * (m + 3)) + (m * blocksOf (n * bSize) + blocksOf (k * bSize)) := by
  simp [total, blocksFile_length]

theorem fullDisk_length : fullDisk.length = 7 := rfl

theorem total_fullDisk : total fullDisk = fsSize := by
  rw [fullDisk, total_blocksFiles]
  decide

/-- One more byte gets block `FS_SIZE`, and `main` returns. -/
theorem disk_overrun : ∃ fs, mkfs (fun _ _ _ => 0) (fullDisk ++ [oneByte]) = .ok fs ∧
    ∃ x, .alloc x ∈ fs.log ∧ fsSize ≤ x.toNat := by
  obtain ⟨fs₀, hbuilt₀, hmkfs⟩ := mkfs_eq (fun _ _ _ => 0) (fullDisk ++ [oneByte])
  have hmem : ∀ f ∈ fullDisk, f = blocksFile 140 ∨ f = blocksFile 93 := by
    intro f hf
    exact (List.mem_append.mp hf).imp List.eq_of_mem_replicate List.mem_singleton.mp
  obtain ⟨fs₁, hloop, hbuilt⟩ := hbuilt₀.addFiles (fun _ _ _ => 0) fullDisk
    (by rw [List.nil_append, fullDisk_length]; decide)
    (fun f hf => by rcases hmem f hf with rfl | rfl <;> decide)
    (fun f hf => by rcases hmem f hf with rfl | rfl <;> rw [blocksFile_length] <;> decide)
    (by rw [List.nil_append, total_fullDisk])
  rw [List.nil_append] at hbuilt
  have hfree := hbuilt.free
  rw [total_fullDisk] at hfree
  have hi : IsFile fullDisk.length ⟨9, by decide⟩ := rfl
  generalize (⟨9, by decide⟩ : Ino) = i at hi
  generalize hcall : ialloc (fun _ _ _ => 0) tFile fs₁ = result
  obtain ⟨inum, fs₂⟩ := result
  have hnew := hbuilt.newFile hi hcall
  have hroot₂ : fs₂.disk.size rootSlot = 144 := hnew.root.trans (by rw [fullDisk_length])
  -- the entry is still in the first block of the directory
  obtain ⟨fs₃, hentry, happ⟩ := hnew.steady.iappend (fun _ _ _ => 0)
    (show (1 : Word).toNat = rootSlot.val from rfl) hnew.root_lt
    (Dirent.bytes ⟨inum.setWidth 16, strncpy oneByte.name⟩)
    ⟨by rw [hroot₂, Dirent.bytes_length]; decide,
      by rw [hroot₂, Dirent.bytes_length, hnew.free, hfree]; decide⟩
  have hfree₃ := hnew.entry_free (Dirent.bytes_length ..) happ
  rw [fullDisk_length, hfree] at hfree₃
  have hempty := hnew.empty happ
  have hbyte := iappend_pass (fun _ _ _ => 0) (rinode_eq (i := i) (fun _ _ _ => 0)
    happ.steady.inv.ok hnew.inum_toNat)
    (List.cons_ne_nil 0 []) (Nat.mod_lt _ (by decide)) (by
      change fs₃.disk.size i < _
      rw [hempty]
      decide) rfl rfl
  generalize winode (fun _ _ _ => 0) inum _ _ = fs₄ at hbyte
  have hfile : addFile (fun _ _ _ => 0) 1 fs₁ oneByte = .ok fs₄ := by
    have hname : 0x2F ∉ oneByte.name := by decide
    simp only [addFile, if_neg hname, hcall, addEntry_eq]
    show (iappend (fun _ _ _ => 0) 1 _ fs₂ >>= _) = _
    rw [hentry]
    show (iappend (fun _ _ _ => 0) inum [0] fs₃ >>= _) = _
    rw [hbyte]
    rfl
  have htotal : fsSize < total (fullDisk ++ [oneByte]) := by
    have hsnoc := total_snoc fullDisk oneByte
    rw [total_fullDisk, fullDisk_length] at hsnoc
    have h9 : blocksOf (16 * (7 + 2)) = 1 := by decide
    have h10 : blocksOf (16 * (7 + 3)) = 1 := by decide
    have h1 : blocksOf oneByte.bytes.length = 1 := by decide
    omega
  rcases hbuilt.addFile_returns (by rw [fullDisk_length]; decide) hfile with ⟨hle, -⟩ | ⟨-, hover⟩
  · omega
  obtain ⟨d, hd, hfree₄⟩ := (iappend_goes hbyte).freeblock
  have hused : fs₄.freeblock.toNat < bpb := by
    have hcount : fs₃.freeblock.toNat = 1000 := Nat.succ.inj hfree₃
    have hmax : 2 * maxFile = 280 := by decide
    rw [hfree₄, BitVec.toNat_add, BitVec.toNat_ofNat, hcount]
    unfold bpb bSize
    omega
  obtain ⟨fs, hfinish⟩ := finish_returns (fun _ _ _ => 0) hused
  refine ⟨fs, ?_, _, (finish_log hfinish).subset hover.alloc, by decide⟩
  rw [hmkfs, List.foldlM_append, hloop]
  show ([oneByte].foldlM (addFile (fun _ _ _ => 0) 1) fs₁ >>= _) = _
  rw [List.foldlM_cons, hfile]
  exact hfinish

/-! ## The inodes -/

/-- The record of an inode in the image. -/
def Image.record (img : Image) (inum : Word) : Dinode :=
  readDinode (img.blk (iblock inum superblock).toNat) (64 * (inum % 8).toNat)

/-- The inodes are in the table, their writes go there, and the image holds what was last written. -/
structure InodesOk (fs : Fs) : Prop where
  ialloc : ∀ inum, .ialloc inum ∈ fs.log → inum.toNat < superblock.ninodes.toNat
  winode : ∀ bn inum ip, .winode bn inum ip ∈ fs.log →
    superblock.inodestart.toNat ≤ bn.toNat ∧ bn.toNat < superblock.bmapstart.toNat
  record : ∀ inum, .ialloc inum ∈ fs.log →
    lastRecord inum.toNat fs.log = some (fs.image.record inum)

theorem addFiles_ialloc {root : Word} (heq : files.foldlM (addFile junk root) fs = .ok fs') {k : Nat}
    (hk : k < files.length) : .ialloc (fs.freeinode + BitVec.ofNat 32 k) ∈ fs'.log := by
  induction files generalizing fs k with
  | nil => exact absurd hk (Nat.not_lt_zero k)
  | cons f rest ih =>
    obtain ⟨fs₁, hcall, hrest⟩ := foldlM_cons_ok heq
    obtain ⟨hino, -, hmem⟩ := addFile_next hcall
    cases k with
    | zero =>
      rw [show fs.freeinode + BitVec.ofNat 32 0 = fs.freeinode from BitVec.add_zero _]
      exact (addFiles_log hrest).subset hmem
    | succ k =>
      have hlast := ih hrest (Nat.lt_of_succ_lt_succ hk)
      rw [hino, BitVec.add_assoc, ← show BitVec.ofNat 32 (k + 1) = 1 + BitVec.ofNat 32 k by
        rw [Nat.add_comm, BitVec.ofNat_add]; rfl] at hlast
      exact hlast

theorem many_files_ialloc (hrun : mkfs junk files = .ok fs) (hmany : 198 < files.length) :
    .ialloc 200 ∈ fs.log := by
  obtain ⟨fs₀, fs₁, hbuilt, hloop, hfinish⟩ := mkfs_ok hrun
  have hmem := (finish_log hfinish).subset (addFiles_ialloc hloop hmany)
  have hnext : fs₀.freeinode = 2 := BitVec.eq_of_toNat_eq hbuilt.next
  rw [hnext] at hmem
  exact hmem

def emptyFile : InFile := ⟨[0x61], [], by decide, by decide⟩

/-- **The table** holds every inode of a run without a short read, just when there are at most 198
files. -/
theorem inode_table_iff (hrun : mkfs junk files = .ok fs) (hio : ∀ sec, .short sec ∉ fs.log) :
    InodesOk fs ↔ files.length ≤ 198 := by
  constructor
  · intro hok
    by_contra hmany
    have hlt := hok.ialloc _ (many_files_ialloc hrun (by omega))
    exact absurd hlt (by decide)
  · intro hfew
    rcases mkfs_returns (Nat.add_le_add_right (hfew.trans (by decide : 198 ≤ 214)) 2) hrun with
      ⟨-, fs₁, hbuilt, hfinished⟩ | ⟨-, hover⟩
    · have hnext := hbuilt.next
      have hstart : superblock.inodestart.toNat = 32 := by decide
      have hend : superblock.bmapstart.toNat = 58 := by decide
      have hnum : superblock.ninodes.toNat = 200 := by decide
      have hslots : slotsNum = 216 := rfl
      have hblocks : inodeBlocksNum * ipb = 208 := rfl
      have hblock : ∀ (inum : Word) (h : inum.toNat < slotsNum),
          (iblock inum superblock).toNat = inodeBlock ⟨inum.toNat, h⟩ := by
        intro inum h
        rw [← hbuilt.steady.inv.ok.sb]
        exact iblock_toNat hbuilt.steady.inv.ok rfl
      refine ⟨fun inum hmem => ?_, fun bn inum ip hmem => ?_, fun inum hmem => ?_⟩
      · obtain ⟨-, hlt⟩ := hfinished.below _ hmem
        omega
      · obtain ⟨hlt, rfl⟩ := hfinished.below _ hmem
        rw [hblock inum (by omega), hstart, hend]
        unfold inodeBlock logSize ipb
        simp only
        omega
      · obtain ⟨h1, hlt⟩ := hfinished.below _ hmem
        have hslot : inum.toNat < slotsNum := by omega
        rw [hfinished.last ⟨inum.toNat, hslot⟩ h1 hlt (by simp only; omega)]
        unfold Image.record Image.ino
        rw [hblock inum hslot, slot_toNat (i := ⟨inum.toNat, hslot⟩) rfl]
    · exact absurd hover.short (hio _)

theorem inode_table_iff_one : ∃ fs, mkfs (fun _ _ _ => 0) [emptyFile] = .ok fs ∧
    (∀ sec, .short sec ∉ fs.log) ∧ InodesOk fs := by
  obtain ⟨fs₁, fs, hrun, -, hfinished⟩ := mkfs_room (fun _ _ _ => 0) [emptyFile]
    (by decide) (by decide) (by decide) (by decide)
  have hio : ∀ sec, .short sec ∉ fs.log := fun sec hmem => hfinished.below _ hmem
  exact ⟨fs, hrun, hio, (inode_table_iff hrun hio).mpr (by decide)⟩

/-- 199 empty files take the inodes up to 200. -/
theorem inode_table_overrun : ∃ fs, mkfs (fun _ _ _ => 0) (List.replicate 199 emptyFile) = .ok fs ∧
    (∀ sec, .short sec ∉ fs.log) ∧ ¬InodesOk fs := by
  have htotal : total (List.replicate 199 emptyFile) ≤ fsSize := by
    simp only [total, List.length_replicate, List.map_replicate, List.sum_replicate_nat]
    decide
  obtain ⟨fs₁, fs, hrun, -, hfinished⟩ := mkfs_room (fun _ _ _ => 0)
    (List.replicate 199 emptyFile) (by rw [List.length_replicate]; decide)
    (fun f hf => by rw [List.eq_of_mem_replicate hf]; decide)
    (fun f hf => by rw [List.eq_of_mem_replicate hf]; decide) htotal
  refine ⟨fs, hrun, fun sec hmem => hfinished.below _ hmem, fun hok => ?_⟩
  have hlt := hok.ialloc _ (many_files_ialloc hrun (by rw [List.length_replicate]; decide))
  exact absurd hlt (by decide)

end TuixOS.Mkfs
