import TuixOS.MkfsRun

/-!
# Reading the image back

The image is read by the layout of `fs.h`: the superblock in block 1, an inode in its slot, a file through
its 12 direct addresses and its indirect block, a directory as `struct dirent`s. What `main` has built is
what is read (`image_round_trip`).
-/

namespace TuixOS.Mkfs

open Lib

variable {fs fs' : Fs} {i : Ino} {files : List InFile}

/-! ## The layout -/

def Image.inode (img : Image) (inum : Nat) : Dinode :=
  let sb := readSuperblock (img.blk 1)
  readDinode (img.blk (inum / ipb + sb.inodestart.toNat)) (64 * (inum % ipb))

/-- The block of the block `fbn` of a file. -/
def Image.bmap (img : Image) (d : Dinode) (fbn : Nat) : Nat :=
  if h : fbn < directNum then (d.addrs ⟨fbn, direct_lt h⟩).toNat
  else (load32 (img.blk (d.addrs 12).toNat) (4 * (fbn - directNum))).toNat

def Image.fileByte (img : Image) (d : Dinode) (o : Nat) : Byte :=
  img.blk (img.bmap d (o / bSize)) (o % bSize)

/-- The bytes of a file up to its size. -/
def Image.bytes (img : Image) (d : Dinode) : List Byte :=
  (List.range d.size.toNat).map (img.fileByte d)

/-- Entry `k` of a directory. -/
def Image.dirent (img : Image) (d : Dinode) (k : Nat) : Dirent where
  inum := word16 (img.fileByte d (16 * k)) (img.fileByte d (16 * k + 1))
  name := (List.range dirSize).map fun j => img.fileByte d (16 * k + 2 + j)

/-! ## Files -/

theorem Built.inode_eq (h : Built files fs) (hf : Finished fs fs') (i : Ino) :
    fs'.image.inode i.val = fs'.image.ino i := by
  have hstart : superblock.inodestart.toNat = 2 + logSize := by decide
  unfold Image.inode Image.ino inodeBlock
  simp only
  rw [hf.blk 1 (Or.inr rfl), h.steady.super, hstart, Nat.add_comm]

theorem Built.bmap_eq (h : Built files fs) (hf : Finished fs fs') {d : Dinode}
    (hd : d.addrs = (fs.disk.ino i).addrs) {fbn : Nat} (hfbn : fbn * bSize < fs.disk.size i) :
    fs'.image.bmap d fbn = fs.disk.val (blockRef i fbn) ∧ metaNum ≤ fs'.image.bmap d fbn := by
  have hinv := h.steady.inv.disk
  have hmax : fbn < maxFile := by
    have hsize := hinv.size i
    unfold bSize at hsize hfbn
    omega
  have hne := (hinv.used i fbn hmax).mpr hfbn
  have hrange := hinv.nums.lt hne
  suffices heq : fs'.image.bmap d fbn = fs.disk.val (blockRef i fbn) from ⟨heq, heq ▸ hrange.1⟩
  unfold Image.bmap
  by_cases hdir : fbn < directNum
  · have href : blockRef i fbn = .addr i ⟨fbn, direct_lt hdir⟩ := dif_pos hdir
    rw [dif_pos hdir, href, hd]
    rfl
  · have href : blockRef i fbn = .entry i (Fin.ofNat 128 (fbn - directNum)) := dif_neg hdir
    have hindex := entryIndex_val hmax
    rw [href] at hne ⊢
    have h12 : (fs.disk.ino i).addrs 12 ≠ 0 := by
      intro h0
      simp [Disk.val, h0] at hne
    have hind := hinv.nums.lt (r := .addr i 12) (mt word_eq_zero.mpr h12)
    change metaNum ≤ ((fs.disk.ino i).addrs 12).toNat ∧ _ at hind
    simp only [Disk.val, if_neg h12, hindex, dif_neg hdir, hd]
    rw [disk_blk, if_neg (Nat.not_lt.mpr hind.1), hf.blk _ (Or.inl hind.1)]

theorem Built.fileByte_eq (h : Built files fs) (hf : Finished fs fs') {d : Dinode}
    (hd : d.addrs = (fs.disk.ino i).addrs) {o : Nat} (ho : o < fs.disk.size i) :
    fs'.image.fileByte d o = fs.disk.byte i o := by
  have hfbn : o / bSize * bSize < fs.disk.size i :=
    Nat.lt_of_le_of_lt (Nat.div_mul_le_self o bSize) ho
  obtain ⟨hbmap, hlow⟩ := h.bmap_eq hf hd hfbn
  unfold Image.fileByte Disk.byte
  rw [hf.blk _ (Or.inl hlow), disk_blk, ← hbmap, if_neg (Nat.not_lt.mpr hlow)]

/-- The bytes below the size are those of the disk. -/
theorem Built.fileByte_content (h : Built files fs) (hf : Finished fs fs') {d : Dinode}
    (hd : d.addrs = (fs.disk.ino i).addrs) {o : Nat} (ho : o < fs.disk.size i) :
    (fs.disk.content i)[o]? = some (fs'.image.fileByte d o) := by
  rw [h.fileByte_eq hf hd ho]
  simp [Disk.content, ho]

theorem Built.bytes_eq (h : Built files fs) (hf : Finished fs fs') {d : Dinode}
    (hd : d = fs.disk.ino i) : fs'.image.bytes d = fs.disk.content i := by
  subst hd
  unfold Image.bytes Disk.content
  exact List.map_congr_left fun o ho => h.fileByte_eq hf rfl (List.mem_range.mp ho)

/-! ## Directories -/

theorem flatMap_getElem {α β : Type} {f : α → List β} {m : Nat} {xs : List α}
    (h : ∀ x ∈ xs, (f x).length = m) {k j : Nat} (hk : k < xs.length) (hj : j < m) :
    (xs.flatMap f)[m * k + j]? = (f xs[k])[j]? := by
  induction xs generalizing k with
  | nil => exact absurd hk (Nat.not_lt_zero k)
  | cons x xs ih =>
    have hx := h x List.mem_cons_self
    rw [List.flatMap_cons]
    cases k with
    | zero =>
      rw [Nat.mul_zero, Nat.zero_add, List.getElem?_append_left (by omega)]
      rfl
    | succ k =>
      rw [Nat.mul_succ, List.getElem?_append_right (by omega), hx,
        show m * k + m + j - m = m * k + j by omega]
      exact ih (fun y hy => h y (List.mem_cons_of_mem _ hy)) (Nat.lt_of_succ_lt_succ hk)

theorem mem_dirents_name {de : Dirent} (h : de ∈ dirents files) : de.name.length = dirSize := by
  have hlen := mem_dirents_length h
  simp only [Dirent.bytes, List.length_append, List.length_cons, List.length_nil] at hlen
  unfold dirSize
  omega

/-- The entries of the root directory, read back. -/
theorem Built.dirent_eq (h : Built files fs) (hf : Finished fs fs') {d : Dinode}
    (hd : d.addrs = (fs.disk.ino rootSlot).addrs) {k : Nat} (hk : k < (dirents files).length) :
    fs'.image.dirent d k = (dirents files)[k] := by
  have hmem : (dirents files)[k] ∈ dirents files := List.getElem_mem hk
  have hname := mem_dirents_name hmem
  have hbyte : ∀ j < 16, some (fs'.image.fileByte d (16 * k + j)) = (dirents files)[k].bytes[j]? := by
    intro j hj
    have ho : 16 * k + j < fs.disk.size rootSlot := by
      rw [dirents_length] at hk
      rw [h.root_size]
      omega
    rw [← h.fileByte_content hf hd ho, h.root]
    exact flatMap_getElem (fun de hde => mem_dirents_length hde) hk hj
  generalize (dirents files)[k] = de at *
  have h0 : fs'.image.fileByte d (16 * k) = byteOf de.inum 0 := Option.some.inj (hbyte 0 (by omega))
  have h1 : fs'.image.fileByte d (16 * k + 1) = byteOf de.inum 1 :=
    Option.some.inj (hbyte 1 (by omega))
  have hnames : (List.range dirSize).map (fun j => fs'.image.fileByte d (16 * k + 2 + j)) =
      de.name := by
    apply List.ext_getElem
    · rw [List.length_map, List.length_range, hname]
    · intro j hj hj'
      have hrest := hbyte (2 + j) (by unfold dirSize at hname; omega)
      simp only [Dirent.bytes, List.getElem?_append_right, List.length_cons, List.length_nil,
        Nat.zero_add, Nat.reduceAdd, Nat.le_add_right, Nat.add_sub_cancel_left] at hrest
      rw [List.getElem_map, List.getElem_range, Nat.add_assoc]
      rw [List.getElem?_eq_getElem hj'] at hrest
      exact Option.some.inj hrest
  unfold Image.dirent
  rw [h0, h1, hnames, word16_byteOf]

/-! ## The round trip -/

/-- A name as `struct dirent` holds it. -/
def padName (name : List Byte) : List Byte := name ++ List.replicate (dirSize - name.length) 0

theorem strncpy_short {name : List Byte} (h : name.length ≤ dirSize) : strncpy name = padName name := by
  unfold strncpy padName
  rw [List.take_append, List.take_of_length_le h, List.take_replicate, Nat.min_eq_left (by omega)]

theorem Built.root_inode (h : Built files fs) (hf : Finished fs fs') :
    fs'.image.inode 1 = { fs.disk.ino rootSlot with
      size := ((fs.disk.ino rootSlot).size / 512 + 1) * 512 } :=
  (h.inode_eq hf rootSlot).trans hf.root

/-- The size of the root goes up to the block behind its last byte. -/
theorem Built.root_inode_size (h : Built files fs) (hf : Finished fs fs') :
    (fs'.image.inode 1).size.toNat = (16 * (files.length + 2) / bSize + 1) * bSize := by
  have hroot := h.root_size
  have hmax := h.steady.inv.disk.size rootSlot
  have h512 : (512 : Word).toNat = 512 := rfl
  have h1 : (1 : Word).toNat = 1 := rfl
  change (fs.disk.ino rootSlot).size.toNat = _ at hroot
  change (fs.disk.ino rootSlot).size.toNat ≤ _ at hmax
  rw [h.root_inode hf]
  show (((fs.disk.ino rootSlot).size / 512 + 1) * 512).toNat = _
  rw [BitVec.toNat_mul, BitVec.toNat_add, BitVec.toNat_udiv, h512, h1, hroot]
  simp only [maxFile, directNum, indirectNum, bSize] at hmax ⊢
  omega

/-- The inode of a file, read back. -/
theorem Built.file_inode (h : Built files fs) (hf : Finished fs fs') (hcount : files.length ≤ 198)
    {k : Nat} (hk : k < files.length) :
    (fs'.image.inode (k + 2)).type = tFile ∧
      (fs'.image.inode (k + 2)).size.toNat = files[k].bytes.length ∧
      fs'.image.bytes (fs'.image.inode (k + 2)) = files[k].bytes := by
  have hslots : slotsNum = 216 := rfl
  have hblocks : inodeBlocksNum * ipb = 208 := rfl
  obtain ⟨i, hi⟩ : ∃ i : Ino, i.val = k + 2 := ⟨⟨k + 2, by omega⟩, rfl⟩
  have hfile : IsFile k i := hi
  have hinode : fs'.image.inode (k + 2) = fs.disk.ino i := by
    rw [← hi, h.inode_eq hf i, hf.ino i (isFile_ne_root hfile) (by omega)]
  obtain ⟨htype, hcontent⟩ := h.file k hk i hfile
  refine ⟨by rw [hinode, htype], ?_, by rw [h.bytes_eq hf hinode, hcontent]⟩
  rw [hinode]
  show fs.disk.size _ = _
  rw [← Disk.content_length, hcontent]

/-- **The round trip**: the image of files that fit holds the superblock, the root directory with an entry
for each file, and the files. -/
theorem image_round_trip (junk : Junk) (files : List InFile) (hcount : files.length ≤ 198)
    (hsize : ∀ f ∈ files, f.bytes.length ≤ maxFile * bSize)
    (hname : ∀ f ∈ files, 1 ≤ f.name.length ∧ f.name.length ≤ dirSize ∧ 0x2F ∉ f.name)
    (htotal : total files ≤ fsSize) :
    ∃ fs, mkfs junk files = .ok fs ∧ fs.freeblock.toNat = total files ∧
      readSuperblock (fs.image.blk 1) = superblock ∧
      (fs.image.inode 1).type = tDir ∧ 16 * (files.length + 2) ≤ (fs.image.inode 1).size.toNat ∧
      fs.image.dirent (fs.image.inode 1) 0 = ⟨1, padName [0x2E]⟩ ∧
      fs.image.dirent (fs.image.inode 1) 1 = ⟨1, padName [0x2E, 0x2E]⟩ ∧
      ∃ inum : Fin files.length → Half, Function.Injective inum ∧ ∀ k, inum k ≠ 1 ∧
        fs.image.dirent (fs.image.inode 1) (k.val + 2) = ⟨inum k, padName files[k].name⟩ ∧
        (fs.image.inode (inum k).toNat).type = tFile ∧
        (fs.image.inode (inum k).toNat).size.toNat = files[k].bytes.length ∧
        fs.image.bytes (fs.image.inode (inum k).toNat) = files[k].bytes := by
  obtain ⟨fs₁, fs, hrun, hbuilt, hf⟩ := mkfs_room junk files
    (Nat.add_le_add_right (hcount.trans (by decide : 198 ≤ 214)) 2) (fun f hfm => (hname f hfm).2.2)
    hsize htotal
  have hroot := hbuilt.root_inode hf
  have hent : ∀ k (hk : k < (dirents files).length),
      fs.image.dirent (fs.image.inode 1) k = (dirents files)[k] := by
    intro k hk
    exact hbuilt.dirent_eq hf (by rw [hroot]) hk
  refine ⟨fs, hrun, by rw [hf.freeblock, hbuilt.free], ?_, ?_, ?_, ?_, ?_,
    fun k => BitVec.ofNat 16 (k.val + 2), ?_, fun k => ?_⟩
  · rw [hf.blk 1 (Or.inr rfl), hbuilt.steady.super]
  · rw [hroot]
    exact hbuilt.rootType
  · rw [hbuilt.root_inode_size hf]
    unfold bSize
    omega
  · rw [hent 0 (by rw [dirents_length]; omega), ← strncpy_short (by decide)]
    rfl
  · rw [hent 1 (by rw [dirents_length]; omega), ← strncpy_short (by decide)]
    rfl
  · intro k k' heq
    have hnat := congrArg BitVec.toNat heq
    simp only [BitVec.toNat_ofNat] at hnat
    exact Fin.ext (by omega)
  · have hk := k.isLt
    have hmem : files[k] ∈ files := List.getElem_mem hk
    have hinum : (BitVec.ofNat 16 (k.val + 2)).toNat = k.val + 2 := by
      rw [BitVec.toNat_ofNat]
      omega
    obtain ⟨htype, hlen, hbytes⟩ := hbuilt.file_inode hf hcount hk
    refine ⟨fun heq => ?_, ?_, by rw [hinum, htype], by rw [hinum, hlen]; rfl,
      by rw [hinum, hbytes]; rfl⟩
    · have hnat := congrArg BitVec.toNat heq
      have h1 : (1 : Half).toNat = 1 := rfl
      rw [hinum, h1] at hnat
      omega
    · rw [hent (k.val + 2) (by rw [dirents_length]; omega), ← strncpy_short (hname _ hmem).2.1]
      simp [dirents]

/-- A file of two bytes, read in two pieces. -/
theorem image_round_trip_two : ∃ fs,
    mkfs (fun _ _ _ => 0) [⟨[0x61], [[1], [2]], by decide, by decide⟩] = .ok fs ∧
      fs.image.dirent (fs.image.inode 1) 0 = ⟨1, padName [0x2E]⟩ ∧ fs.freeblock.toNat = 61 := by
  obtain ⟨fs, hrun, hfree, -, -, -, hdot, -⟩ := image_round_trip (fun _ _ _ => 0)
    [⟨[0x61], [[1], [2]], by decide, by decide⟩] (by decide) (by decide) (by decide) (by decide)
  exact ⟨fs, hrun, hdot, hfree⟩

end TuixOS.Mkfs
