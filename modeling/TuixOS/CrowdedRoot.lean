import TuixOS.MkfsRun

/-!
# Records in the blocks of the directory

From inode 216 on `ialloc` writes its records into data blocks. With empty files these are blocks of the
directory, full ones at first (`Early`); the record of inode 288 goes to the block that takes the entries
of the files 288 to 319, so the next entries are written over it (`Late`).
-/

namespace TuixOS.Mkfs

open Lib

variable {fs fs' : Fs} {junk : Junk} {n m : Nat}

/-! ## The directory alone -/

/-- A table with no other file. -/
def rootOnly (d : Dinode) : Ino → Dinode := Function.update (fun _ => newInode 0) rootSlot d

/-- `n` is the next inode, and the directory has `m` bytes and all blocks. -/
structure Early (n m : Nat) (fs : Fs) : Prop where
  ok : fs.Ok
  next : fs.freeinode.toNat = n
  disk : (fs.diskOn (rootOnly (fs.record 1))).Inv
  size : fs.fileSize 1 = m
  free : fs.freeblock.toNat = metaNum + blocksOf m

theorem iblock_one : (iblock 1 superblock).toNat = 32 := by decide

theorem rootOnly_size (fs : Fs) : (fs.diskOn (rootOnly (fs.record 1))).size rootSlot = fs.fileSize 1 := by
  simp [Disk.size, Fs.diskOn, rootOnly, Fs.fileSize]

theorem rootOnly_size_le (fs : Fs) (i : Ino) :
    (fs.diskOn (rootOnly (fs.record 1))).size i ≤ fs.fileSize 1 := by
  by_cases hi : i = rootSlot
  · rw [hi, rootOnly_size]
  · simp [Disk.size, Fs.diskOn, rootOnly, Function.update_of_ne hi, newInode]

/-- What `ialloc` leaves, wherever the record lies. -/
theorem ialloc_next (junk : Junk) (type : Half) (h : fs.Ok) (hn : 2 ≤ fs.freeinode.toNat)
    (hlt : (iblock fs.freeinode superblock).toNat < fsSize) :
    (ialloc junk type fs).2.Ok ∧
      (ialloc junk type fs).2.freeinode.toNat = fs.freeinode.toNat + 1 ∧
      (ialloc junk type fs).2.freeblock = fs.freeblock ∧
      (ialloc junk type fs).2.record 1 = fs.record 1 ∧
      (ialloc junk type fs).2.image.blk = Function.update fs.image.blk
        (iblock fs.freeinode superblock).toNat
          (writeDinode (fs.image.blk (iblock fs.freeinode superblock).toNat)
            (64 * (fs.freeinode % 8).toNat) (newInode type)) := by
  have hok : ({ fs with freeinode := fs.freeinode + 1 }.note (.ialloc fs.freeinode)).Ok :=
    ⟨h.sb, h.size⟩
  have hblock := hlt
  rw [iblock_super] at hblock
  rw [ialloc_eq]
  obtain ⟨hok', hino, hfree⟩ := winode_ok junk hok hlt (newInode type)
  refine ⟨hok', ?_, hfree, ?_, (winode_blk junk hok.covers hlt (newInode type)).2⟩
  · have h1 : (1 : Word).toNat = 1 := rfl
    show (winode junk fs.freeinode (newInode type) _).freeinode.toNat = _
    rw [hino]
    show (fs.freeinode + 1).toNat = _
    unfold ipb fsSize at hblock
    rw [BitVec.toNat_add, h1]
    omega
  · have hne : (1 : Word) ≠ fs.freeinode := by
      intro heq
      rw [← heq] at hn
      exact absurd hn (by decide)
    show (winode junk fs.freeinode (newInode type) _).record 1 = _
    rw [winode_record junk hok.covers hlt, if_neg hne]
    rfl

theorem Early.ialloc (h : Early n m fs) (hn : 2 ≤ n) (hm : m ≤ directNum * bSize)
    (hblock : 32 + n / 8 < fs.freeblock.toNat) (junk : Junk) (type : Half) :
    Early (n + 1) m (ialloc junk type fs).2 := by
  have hnext := h.next
  have hhigh : fs.freeblock.toNat ≤ fsSize := h.disk.high
  have hiblock : (iblock fs.freeinode superblock).toNat = 32 + n / 8 := by
    rw [iblock_super, hnext]
    rfl
  have hlt : (iblock fs.freeinode superblock).toNat < fsSize := by omega
  obtain ⟨hok, hino, hfree, hrecord, hblk⟩ := ialloc_next junk type h.ok (by omega) hlt
  refine ⟨hok, by rw [hino, hnext], ?_, ?_, by rw [hfree, h.free]⟩
  · rw [hrecord]
    by_cases hlow : (iblock fs.freeinode superblock).toNat < metaNum
    · unfold Fs.diskOn
      rw [dataBlk_low hblk hlow, hfree]
      exact h.disk
    · -- a full block of the directory
      rw [diskOn_update hblk hfree (by omega)]
      refine h.disk.write _ (by rw [hiblock]; exact hblock) fun i heq => ?_
      have hsize := (h.disk.indirect i).mp (by
        rw [heq]
        rw [metaNum_eq] at hlow
        omega)
      have hle := rootOnly_size_le fs i
      rw [h.size] at hle
      omega
  · rw [Fs.fileSize, hrecord]
    exact h.size

theorem Early.append (h : Early n m fs) (junk : Junk) {p : List Byte} (hm : m + p.length ≤ 4608) :
    ∃ fs', iappend junk 1 p fs = .ok fs' ∧ Early n (m + p.length) fs' := by
  have hblocks : blocksOf (m + p.length) ≤ blocksOf 4608 := blocksOf_mono hm
  have h9 : blocksOf 4608 = 9 := by decide
  have hfree := h.free
  rw [metaNum_eq] at hfree
  have hsize := rootOnly_size fs
  rw [h.size] at hsize
  have hlt : (iblock 1 superblock).toNat < fsSize := by decide
  have hmax : 4608 ≤ maxFile * bSize := by decide
  obtain ⟨fs₁, d, hcall, hframe, hdisk⟩ := iappend_on (T := rootOnly (fs.record 1)) (i := rootSlot)
    junk hlt (by simp [rootOnly]) h.ok h.disk
    (show _ + p.length ≤ maxFile * bSize by rw [hsize]; omega) (by rw [hsize]; unfold fsSize; omega)
  have happ := Disk.append_appended h.disk rootSlot
    (show _ + p.length ≤ maxFile * bSize by rw [hsize]; omega) (by
      change fs.freeblock.toNat + _ ≤ _
      rw [hsize]
      unfold fsSize
      omega)
  rw [← hdisk] at happ
  obtain ⟨hok, hino, hcount⟩ := winode_ok junk hframe.ok hlt d
  have hrecord : (winode junk 1 d fs₁).record 1 = d := by
    rw [winode_record junk hframe.ok.covers hlt, if_pos rfl]
  have hsize' : (fs₁.diskFor (rootOnly (fs.record 1)) rootSlot d).size rootSlot =
      m + p.length := by rw [happ.size, hsize]
  have hfree' := happ.free
  rw [hsize', hsize] at hfree'
  change fs₁.freeblock.toNat + _ = fs.freeblock.toNat + _ at hfree'
  refine ⟨_, hcall, hok, ?_, ?_, ?_, ?_⟩
  · rw [hino, hframe.freeinode, h.next]
  · have hdata := dataBlk_low (winode_blk junk hframe.ok.covers hlt d).2 (by decide)
    have hinv := happ.inv
    unfold Fs.diskFor Fs.diskOn rootOnly at hinv
    rw [Function.update_idem] at hinv
    rw [hrecord]
    unfold Fs.diskOn rootOnly
    rw [hdata, hcount]
    exact hinv
  · rw [← hsize', Fs.fileSize, hrecord]
    simp [Disk.size, Fs.diskOn]
  · rw [hcount, metaNum_eq]
    omega

/-! ## Empty files -/

def entry (names : Nat → List Byte) (k : Nat) : List Byte :=
  Dirent.bytes ⟨BitVec.ofNat 16 k, strncpy (names k)⟩

/-- The calls of `main` before the files. -/
def startCalls : List Call :=
  [.ialloc tDir, .iappend 1 (Dirent.bytes ⟨1, strncpy [0x2E]⟩),
    .iappend 1 (Dirent.bytes ⟨1, strncpy [0x2E, 0x2E]⟩)]

/-- The calls of `main` for the file with inode `k`, which is empty. -/
def fileCalls (names : Nat → List Byte) (k : Nat) : List Call :=
  [.ialloc tFile, .iappend 1 (entry names k)]

/-- The calls of `main` for `n` empty files. -/
def emptyFiles (names : Nat → List Byte) (n : Nat) : List Call :=
  startCalls ++ (List.range n).flatMap fun k => fileCalls names (k + 2)

theorem entry_length (names : Nat → List Byte) (k : Nat) : (entry names k).length = 16 :=
  Dirent.bytes_length ..

theorem emptyFiles_succ (names : Nat → List Byte) (n : Nat) :
    emptyFiles names (n + 1) = emptyFiles names n ++ fileCalls names (n + 2) := by
  simp [emptyFiles, List.range_succ, List.flatMap_append]

/-- The formatted image with the root. -/
theorem root_early (junk : Junk) : Early 2 0 (ialloc junk tDir format).2 := by
  have hone : format.freeinode.toNat = rootSlot.val := by
    rw [format_freeinode]
    rfl
  generalize hcall : ialloc junk tDir format = result
  obtain ⟨inum, fs⟩ := result
  obtain ⟨-, hinv, hino, hfree, hdisk, -⟩ := ialloc_spec junk tDir format_inv hone hcall
  have hrecord : fs.record 1 = newInode tDir := by
    rw [record_ino fs (show (1 : Word).toNat = rootSlot.val from rfl), hdisk]
    exact Function.update_self rootSlot (newInode tDir) format.disk.ino
  have hdata : fs.image.dataBlk = format.disk.blk := congrArg Disk.blk hdisk
  have hcount : fs.freeblock.toNat = metaNum := by
    rw [hfree, ← disk_free]
    exact format_free
  have hnew : ∀ i, ∃ type, rootOnly (newInode tDir) i = newInode type := by
    intro i
    by_cases hi : i = rootSlot
    · exact ⟨tDir, by rw [hi, rootOnly, Function.update_self]⟩
    · exact ⟨0, Function.update_of_ne hi ..⟩
  refine ⟨hinv.ok, ?_, ?_, ?_, hcount⟩
  · rw [hino, hone]
    rfl
  · show (fs.diskOn (rootOnly (fs.record 1))).Inv
    rw [hrecord]
    refine Disk.empty_inv (fun i k => ?_) (fun i => ?_) hcount fun b hb => ?_
    · obtain ⟨type, htype⟩ := hnew i
      show (rootOnly _ i).addrs k = 0
      rw [htype]
      rfl
    · obtain ⟨type, htype⟩ := hnew i
      show (rootOnly _ i).size.toNat = 0
      rw [htype]
      rfl
    · show fs.image.dataBlk b = _
      rw [hdata, format_data b hb]
  · show (fs.record 1).size.toNat = 0
    rw [hrecord]
    rfl

theorem start_early (junk : Junk) :
    ∃ fs, Run (CallReturns junk) format startCalls fs ∧ Early 2 32 fs := by
  have hroot := root_early junk
  have hdot : (Dirent.bytes ⟨1, strncpy [0x2E]⟩).length = 16 := Dirent.bytes_length ..
  have hdots : (Dirent.bytes ⟨1, strncpy [0x2E, 0x2E]⟩).length = 16 := Dirent.bytes_length ..
  obtain ⟨fs₂, hcall₂, hearly₂⟩ := hroot.append junk (p := Dirent.bytes ⟨1, strncpy [0x2E]⟩)
    (by rw [hdot]; decide)
  rw [hdot] at hearly₂
  obtain ⟨fs₃, hcall₃, hearly₃⟩ := hearly₂.append junk
    (p := Dirent.bytes ⟨1, strncpy [0x2E, 0x2E]⟩) (by rw [hdots]; decide)
  rw [hdots] at hearly₃
  refine ⟨fs₃, .cons ⟨trivial, rfl⟩ (.cons ⟨⟨le_rfl, ?_⟩, hcall₂⟩
    (.single ⟨⟨le_rfl, ?_⟩, hcall₃⟩)), hearly₃⟩
  · rw [hroot.next]
    decide
  · rw [hearly₂.next]
    decide

theorem emptyFiles_early (junk : Junk) (names : Nat → List Byte) (hn : n ≤ 286) :
    ∃ fs, Run (CallReturns junk) format (emptyFiles names n) fs ∧
      Early (n + 2) (16 * (n + 2)) fs := by
  induction n with
  | zero =>
    obtain ⟨fs, hrun, hearly⟩ := start_early junk
    exact ⟨fs, by simpa [emptyFiles] using hrun, hearly⟩
  | succ n ih =>
    obtain ⟨fs, hrun, hearly⟩ := ih (by omega)
    have hblocks : blocksOf (16 * (n + 2)) = (16 * (n + 2) + 511) / 512 := by
      unfold blocksOf directNum bSize
      rw [if_neg (by omega), Nat.add_zero]
    have hearly₁ := hearly.ialloc (by omega) (by unfold directNum bSize; omega) (by
      rw [hearly.free, metaNum_eq, hblocks]
      omega) junk tFile
    obtain ⟨fs₂, hcall, hearly₂⟩ := hearly₁.append junk (p := entry names (n + 2)) (by
      rw [entry_length]
      omega)
    rw [entry_length] at hearly₂
    refine ⟨fs₂, ?_, hearly₂⟩
    rw [emptyFiles_succ]
    refine hrun.append (.cons ⟨trivial, rfl⟩ (.single ⟨⟨le_rfl, ?_⟩, hcall⟩))
    rw [hearly₁.next]
    exact Nat.le_add_left 2 (n + 1)

/-! ## The block that takes the records and the entries -/

/-- The last block of the directory, 68, has the entries of `m` files from inode 288 on. -/
structure Late (names : Nat → List Byte) (n m : Nat) (fs : Fs) : Prop where
  ok : fs.Ok
  next : fs.freeinode.toNat = n
  size : fs.fileSize 1 = 4608 + 16 * m
  addr : (fs.record 1).addrs 9 = 0 ∧ fs.freeblock = 68 ∨ (fs.record 1).addrs 9 = 68 ∧ fs.freeblock = 69
  bytes : ∀ k < m, ∀ o < 16, fs.image.blk 68 (16 * k + o) = (entry names (288 + k)).getD o 0

variable {names : Nat → List Byte}

theorem Early.late (names : Nat → List Byte) (h : Early 288 4608 fs) : Late names 288 0 fs := by
  have hval : (fs.diskOn (rootOnly (fs.record 1))).val (blockRef rootSlot 9) = 0 := by
    by_contra hne
    have hused := (h.disk.used rootSlot 9 (by decide)).mp hne
    rw [rootOnly_size, h.size] at hused
    exact absurd hused (by decide)
  have haddr : ((fs.record 1).addrs 9).toNat = 0 := by
    simpa [Disk.val, blockRef, directNum, Fs.diskOn, rootOnly] using hval
  exact ⟨h.ok, h.next, h.size, Or.inl ⟨BitVec.eq_of_toNat_eq haddr, BitVec.eq_of_toNat_eq h.free⟩,
    by simp⟩

/-- The record goes behind the entries. -/
theorem Late.ialloc (h : Late names (288 + m) m fs) (hm : m < 8) (junk : Junk) (type : Half) :
    Late names (288 + m + 1) m (ialloc junk type fs).2 := by
  have hnext := h.next
  have hiblock : (iblock fs.freeinode superblock).toNat = 68 := by
    rw [iblock_super, hnext]
    unfold logSize ipb
    omega
  have hslot : (fs.freeinode % 8).toNat = m := by
    have h8 : (8 : Word).toNat = 8 := rfl
    rw [BitVec.toNat_umod, h8, hnext]
    omega
  obtain ⟨hok, hino, hfree, hrecord, hblk⟩ := ialloc_next junk type h.ok (by omega)
    (by rw [hiblock]; decide)
  refine ⟨hok, by rw [hino, hnext], ?_, ?_, fun k hk o ho => ?_⟩
  · rw [Fs.fileSize, hrecord]
    exact h.size
  · rw [hrecord, hfree]
    exact h.addr
  · rw [hblk, hiblock, Function.update_self, hslot, writeDinode, if_neg (by omega)]
    exact h.bytes k hk o ho

/-- Block 9 of the directory is block 68, allocated for the first entry in it. -/
theorem Late.block (h : Late names n m fs) (indirect : Buf) : ∃ din fs₁,
    iappendBlock 9 (fs.record 1) indirect fs = (68, din, indirect, fs₁) ∧ din.addrs 9 = 68 ∧
      fs₁.freeblock = 69 ∧ fs₁.Ok ∧ fs₁.freeinode = fs.freeinode ∧ fs₁.image = fs.image := by
  have hdir : 9 < directNum := by decide
  unfold iappendBlock
  have hk : (⟨9, direct_lt hdir⟩ : Fin 13) = 9 := rfl
  rw [dif_pos hdir]
  simp only [xint_eq, hk]
  rcases h.addr with ⟨h0, hfree⟩ | ⟨h68, hfree⟩
  · refine ⟨(fs.record 1).setAddr 9 68, fs.bump, ?_, ?_, ?_, ⟨h.ok.sb, h.ok.size⟩, rfl, rfl⟩
    · rw [if_pos h0, hfree]
      simp [Dinode.setAddr]
    · simp [Dinode.setAddr]
    · show fs.freeblock + 1 = 69
      rw [hfree]
      rfl
  · refine ⟨fs.record 1, fs, ?_, h68, hfree, h.ok, rfl, rfl⟩
    rw [h68]
    rfl

theorem Late.append (h : Late names n m fs) (hm : m < 8) (junk : Junk) :
    ∃ fs', iappend junk 1 (entry names (288 + m)) fs = .ok fs' ∧ Late names n (m + 1) fs' := by
  have hsize : (fs.record 1).size.toNat = 4608 + 16 * m := h.size
  have hlen := entry_length names (288 + m)
  have hlt : (iblock 1 superblock).toNat < fsSize := by decide
  have hmax : 4608 + 16 * 8 < maxFile * bSize := by decide
  obtain ⟨din, fs₁, hblock, haddr, hfree, hok, hino, himage⟩ :=
    h.block (junk .indirect fs.log)
  obtain ⟨buf, hread, hclip⟩ :=
    rsect_spec (show (68 : Word).toNat < fsSize by decide) (junk .iappend fs.log) hok.size.ge
  have hdiv : ((fs.record 1).size / 512).toNat = 9 := by
    rw [off_div, hsize]
    unfold bSize
    omega
  have hmod : ((fs.record 1).size % 512).toNat = 16 * m := by
    rw [off_mod, hsize]
    unfold bSize
    omega
  have hcall := iappend_pass junk (rinode_record junk h.ok.covers hlt)
    (List.ne_nil_of_length_pos (show 0 < (entry names (288 + m)).length by omega))
    (by rw [hsize, hlen]; unfold bSize; omega)
    (by omega) (by rw [hdiv]; exact hblock) hread
  rw [hmod, hlen] at hcall
  have h68 : (68 : Word).toNat < fsSize := by decide
  have hframe := hok.wsect (E := fun _ => True) h68 (memmove buf (16 * m) (entry names (288 + m)))
    trivial
  have hdata : (wsect 68 (memmove buf (16 * m) (entry names (288 + m))) fs₁).image.blk 68 =
      memmove (fs.image.blk 68) (16 * m) (entry names (288 + m)) := by
    rw [wsect_blk h68, ← himage]
    show Function.update _ 68 _ 68 = _
    rw [Function.update_self, clip_memmove _ (by rw [hlen]; unfold bSize; omega), hclip]
    rfl
  have hcount : (wsect 68 (memmove buf (16 * m) (entry names (288 + m))) fs₁).freeblock = 69 := hfree
  generalize wsect 68 (memmove buf (16 * m) (entry names (288 + m))) fs₁ = fs₂ at hcall hframe hdata hcount
  generalize hd : ({ din with size := (fs.record 1).size + BitVec.ofNat 32 16 } : Dinode) = d at hcall
  obtain ⟨hok', hino', hfree'⟩ := winode_ok junk hframe.ok hlt d
  have hrecord : (winode junk 1 d fs₂).record 1 = d := by
    rw [winode_record junk hframe.ok.covers hlt, if_pos rfl]
  have hblk : (winode junk 1 d fs₂).image.blk 68 = fs₂.image.blk 68 := by
    rw [(winode_blk junk hframe.ok.covers hlt d).2, iblock_one, Function.update_of_ne (by decide)]
  refine ⟨_, hcall, hok', ?_, ?_, Or.inr ⟨?_, ?_⟩, fun k hk o ho => ?_⟩
  · rw [hino', hframe.freeinode, hino, h.next]
  · have hadd := (off_add (fs.record 1).size (n := 16) (by omega)).2
    rw [Fs.fileSize, hrecord, ← hd]
    show ((fs.record 1).size + BitVec.ofNat 32 16).toNat = _
    rw [hadd, hsize]
    omega
  · rw [hrecord, ← hd]
    exact haddr
  · rw [hfree', hcount]
  · rw [hblk, hdata]
    by_cases hkm : k = m
    · subst hkm
      rw [memmove_inside (by rw [hlen]; exact ho), List.getElem_eq_getD 0]
    · rw [memmove_before (by omega)]
      exact h.bytes k (by omega) o ho

theorem emptyFiles_late (junk : Junk) (names : Nat → List Byte) (hm : m ≤ 8) :
    ∃ fs, Run (CallReturns junk) format (emptyFiles names (286 + m)) fs ∧
      Late names (288 + m) m fs := by
  induction m with
  | zero =>
    obtain ⟨fs, hrun, hearly⟩ := emptyFiles_early junk names (Nat.le_refl 286)
    exact ⟨fs, hrun, hearly.late names⟩
  | succ m ih =>
    obtain ⟨fs, hrun, hlate⟩ := ih (by omega)
    have hlate₁ := hlate.ialloc hm junk tFile
    obtain ⟨fs₂, hcall, hlate₂⟩ := hlate₁.append hm junk
    refine ⟨fs₂, ?_, hlate₂⟩
    rw [← Nat.add_assoc, emptyFiles_succ, Nat.add_right_comm]
    refine hrun.append (.cons ⟨trivial, rfl⟩ (.single ⟨⟨le_rfl, ?_⟩, hcall⟩))
    rw [hlate₁.next]
    show 1 < 288 + m + 1
    omega

end TuixOS.Mkfs
