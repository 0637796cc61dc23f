import TuixOS.MkfsDisk

/-!
# The image file as a disk

`Fs.disk` reads the inode table and the data blocks out of the image. `rinode`, `winode`, `wsect` and
`iappendBlock` are the operations of `Disk` on it, and `Frame` says which sectors they write.
-/

namespace TuixOS.Mkfs

open Lib

variable {fs fs' fs'' : Fs}

/-! ## Blocks and buffers -/

def clip (buf : Buf) : Buf := fun o => if o < bSize then buf o else 0

/-- The contents of a block. -/
def Image.blk (img : Image) (b : Nat) : Buf := clip fun o => img.data (bSize * b + o)

@[simp] theorem xint_eq (x : Word) : xint x = x := word32_byteOf x

@[simp] theorem xshort_eq (x : Half) : xshort x = x := word16_byteOf x

theorem clip_memmove (buf : Buf) {o : Nat} {xs : List Byte} (h : o + xs.length ≤ bSize) :
    clip (memmove buf o xs) = memmove (clip buf) o xs := by
  funext k
  by_cases hk : k < bSize
  · rw [clip, if_pos hk, memmove, memmove, clip, if_pos hk]
  · rw [clip, if_neg hk, memmove, if_neg (by omega), clip, if_neg hk]

theorem clip_lt {buf : Buf} {o : Nat} (ho : o < bSize) : clip buf o = buf o := if_pos ho

theorem load32_clip {buf : Buf} {j : Nat} (hj : j + 4 ≤ bSize) : load32 (clip buf) j = load32 buf j := by
  apply load32_congr <;> apply clip_lt <;> omega

theorem clip_store32 {buf : Buf} {j : Nat} (v : Word) (hj : j + 4 ≤ bSize) :
    clip (store32 buf j v) = store32 (clip buf) j v := by
  funext o
  rw [store32_index]
  unfold clip
  rw [store32_index]
  split_ifs <;> first | rfl | omega

theorem sector_far {sec : Word} (h : sec.toNat < 2 ^ 23) : (sec * 512).toNat = bSize * sec.toNat := by
  unfold bSize
  bv_omega

theorem sector_toNat {sec : Word} (h : sec.toNat < fsSize) : (sec * 512).toNat = bSize * sec.toNat :=
  sector_far (h.trans (by decide))

/-- A write anywhere, also behind the disk. -/
theorem wsect_far {sec : Word} (h : sec.toNat < 2 ^ 23) (buf : Buf) (fs : Fs) :
    (wsect sec buf fs).image.blk = Function.update fs.image.blk sec.toNat (clip buf) := by
  funext b o
  have hsec := sector_far h
  by_cases hb : b = sec.toNat
  · subst hb
    rw [Function.update_self]
    unfold Image.blk clip wsect Fs.note
    simp only [hsec]
    split_ifs with ho hin
    · rw [Nat.add_sub_cancel_left]
    · omega
    · rfl
  · rw [Function.update_of_ne hb]
    unfold Image.blk clip wsect Fs.note
    simp only [hsec]
    split_ifs with ho hin
    · unfold bSize at ho hin
      omega
    · rfl
    · rfl

theorem wsect_blk {sec : Word} (h : sec.toNat < fsSize) (buf : Buf) (fs : Fs) :
    (wsect sec buf fs).image.blk = Function.update fs.image.blk sec.toNat (clip buf) :=
  wsect_far (h.trans (by decide)) buf fs

theorem wsect_size {sec : Word} (h : sec.toNat < fsSize) (buf : Buf)
    (hsize : fs.image.size = fsSize * bSize) : (wsect sec buf fs).image.size = fsSize * bSize := by
  have hsec := sector_toNat h
  simp only [wsect, Fs.note, hsec, hsize]
  unfold fsSize bSize at *
  omega

/-- A read inside the file. -/
theorem rsect_spec {sec : Word} (h : sec.toNat < fsSize) (buf : Buf)
    (hsize : fsSize * bSize ≤ fs.image.size) :
    ∃ buf', rsect sec buf fs = (buf', fs) ∧ clip buf' = fs.image.blk sec.toNat := by
  have hsec := sector_toNat h
  refine ⟨_, Prod.ext rfl (if_pos ?_), ?_⟩
  · rw [hsec]
    unfold fsSize bSize at *
    omega
  · funext o
    unfold Image.blk clip rsect
    simp only [hsec]
    split_ifs with ho hin
    · rfl
    · unfold fsSize bSize at *
      omega
    · rfl

/-! ## Inodes in their blocks -/

theorem readDinode_congr {buf buf' : Buf} {a : Nat} (h : ∀ k < 64, buf' (a + k) = buf (a + k)) :
    readDinode buf' a = readDinode buf a := by
  have h16 : ∀ k, k + 2 ≤ 64 → load16 buf' (a + k) = load16 buf (a + k) := by
    intro k hk
    unfold load16
    rw [h k (by omega), Nat.add_assoc, h (k + 1) (by omega)]
  have h32 : ∀ k, k + 4 ≤ 64 → load32 buf' (a + k) = load32 buf (a + k) := by
    intro k hk
    apply load32_congr <;> (try rw [Nat.add_assoc]) <;> apply h <;> omega
  unfold readDinode
  congr 1
  · exact h16 0 (by omega)
  · exact h16 2 (by omega)
  · exact h16 4 (by omega)
  · exact h16 6 (by omega)
  · exact h32 8 (by omega)
  · funext k
    have hk := k.isLt
    rw [Nat.add_assoc]
    exact h32 (12 + 4 * k) (by omega)

theorem readDinode_clip {buf : Buf} {a : Nat} (ha : a + 64 ≤ bSize) :
    readDinode (clip buf) a = readDinode buf a :=
  readDinode_congr fun _ _ => clip_lt (by omega)

theorem readDinode_writeDinode_ne {buf : Buf} {a a' : Nat} {d : Dinode}
    (h : a + 64 ≤ a' ∨ a' + 64 ≤ a) : readDinode (writeDinode buf a d) a' = readDinode buf a' := by
  apply readDinode_congr
  intro k hk
  exact if_neg (by omega)

theorem Dinode.byte_addrs (d : Dinode) (k : Fin 13) {t : Nat} (ht : t < 4) :
    d.byte (12 + 4 * k.val + t) = byteOf (d.addrs k) t := by
  have hk := k.isLt
  have hdiv : (12 + 4 * k.val + t - 12) / 4 = k.val := by omega
  have hmod : (12 + 4 * k.val + t - 12) % 4 = t := by omega
  unfold Dinode.byte
  rw [if_neg (by omega), if_neg (by omega), if_neg (by omega), if_neg (by omega),
    if_neg (by omega), hdiv, hmod]
  congr 2
  exact Fin.ext (Nat.mod_eq_of_lt hk)

theorem readDinode_writeDinode (buf : Buf) (a : Nat) (d : Dinode) :
    readDinode (writeDinode buf a d) a = d := by
  have hbyte : ∀ k < 64, writeDinode buf a d (a + k) = d.byte k := by
    intro k hk
    unfold writeDinode
    rw [if_pos (by omega), Nat.add_sub_cancel_left]
  have h16 : ∀ k, k + 2 ≤ 64 →
      load16 (writeDinode buf a d) (a + k) = word16 (d.byte k) (d.byte (k + 1)) := by
    intro k hk
    rw [load16, hbyte k (by omega), Nat.add_assoc, hbyte (k + 1) (by omega)]
  have h32 : ∀ k, k + 4 ≤ 64 → load32 (writeDinode buf a d) (a + k) =
      word32 (d.byte k) (d.byte (k + 1)) (d.byte (k + 2)) (d.byte (k + 3)) := by
    intro k hk
    rw [load32, hbyte k (by omega), Nat.add_assoc, Nat.add_assoc, Nat.add_assoc,
      hbyte (k + 1) (by omega), hbyte (k + 2) (by omega), hbyte (k + 3) (by omega)]
  have haddrs : ∀ k : Fin 13, load32 (writeDinode buf a d) (a + 12 + 4 * k.val) = d.addrs k := by
    intro k
    have hk := k.isLt
    rw [Nat.add_assoc, h32 _ (by omega)]
    have h0 := d.byte_addrs k (t := 0) (by omega)
    rw [Nat.add_zero] at h0
    rw [h0, d.byte_addrs k (by omega), d.byte_addrs k (by omega), d.byte_addrs k (by omega),
      word32_byteOf]
  unfold readDinode
  congr 1
  · exact (h16 0 (by omega)).trans (word16_byteOf d.type)
  · exact (h16 2 (by omega)).trans (word16_byteOf d.major)
  · exact (h16 4 (by omega)).trans (word16_byteOf d.minor)
  · exact (h16 6 (by omega)).trans (word16_byteOf d.nlink)
  · exact (h32 8 (by omega)).trans (word32_byteOf d.size)
  · exact funext haddrs

/-! ## The disk of an image -/

/-- The block of an inode. -/
def inodeBlock (i : Ino) : Nat := 2 + logSize + i.val / ipb

theorem inodeBlock_lt (i : Ino) : inodeBlock i < metaNum := by
  have hi := i.lt
  rw [metaNum_eq]
  unfold inodeBlock logSize ipb
  omega

/-- The data blocks, with the others blanked. -/
def Image.dataBlk (img : Image) (b : Nat) : Buf := if b < metaNum then fun _ => 0 else img.blk b

def Image.ino (img : Image) (i : Ino) : Dinode :=
  readDinode (img.blk (inodeBlock i)) (64 * (i.val % ipb))

namespace Fs

def disk (fs : Fs) : Disk := ⟨fs.image.ino, fs.image.dataBlk, fs.freeblock⟩

/-- The disk with the copy of an inode that `iappend` works on. -/
def diskWith (fs : Fs) (i : Ino) (din : Dinode) : Disk :=
  { fs.disk with ino := Function.update fs.disk.ino i din }

/-- The data blocks with any table of inodes; the loop of `iappend` does not look at the image's. -/
def diskOn (fs : Fs) (T : Ino → Dinode) : Disk := ⟨T, fs.image.dataBlk, fs.freeblock⟩

/-- `diskWith` on such a table. -/
abbrev diskFor (fs : Fs) (T : Ino → Dinode) (i : Ino) (din : Dinode) : Disk :=
  fs.diskOn (Function.update T i din)

/-- The image has its full size, and the superblock is that of the layout. -/
structure Ok (fs : Fs) : Prop where
  sb : fs.sb = superblock
  size : fs.image.size = fsSize * bSize

/-- The same of an image that may be longer. -/
structure Covers (fs : Fs) : Prop where
  sb : fs.sb = superblock
  size : fsSize * bSize ≤ fs.image.size

theorem Ok.covers (h : fs.Ok) : fs.Covers := ⟨h.sb, h.size.ge⟩

/-- What has happened is in `E`, and blocks that it does not write are as they were. -/
structure Frame (E : Event → Prop) (fs fs' : Fs) : Prop where
  ok : fs'.Ok
  freeinode : fs'.freeinode = fs.freeinode
  blk : ∀ b, (∀ sec : Word, E (.wsect sec) → sec.toNat ≠ b) → fs'.image.blk b = fs.image.blk b
  log : ∃ es, fs'.log = es ++ fs.log ∧ ∀ e ∈ es, E e

end Fs

variable {E E' : Event → Prop}

theorem Fs.Frame.refl (E : Event → Prop) (h : fs.Ok) : fs.Frame E fs :=
  ⟨h, rfl, fun _ _ => rfl, [], rfl, by simp⟩

theorem Fs.Frame.trans (h : fs.Frame E fs') (h' : fs'.Frame E fs'') : fs.Frame E fs'' where
  ok := h'.ok
  freeinode := h'.freeinode.trans h.freeinode
  blk b hb := (h'.blk b hb).trans (h.blk b hb)
  log := by
    obtain ⟨es, hes, hE⟩ := h.log
    obtain ⟨es', hes', hE'⟩ := h'.log
    refine ⟨es' ++ es, by rw [hes', hes, List.append_assoc], fun e he => ?_⟩
    exact (List.mem_append.mp he).elim (hE' e) (hE e)

/-- The loop of `iappend` hands out blocks of the disk and writes data blocks. -/
def Event.Data : Event → Prop
  | .wsect sec => metaNum ≤ sec.toNat ∧ sec.toNat < fsSize
  | .alloc x => x.toNat < fsSize
  | _ => False

/-- `winode` writes the block of the inode. -/
def Event.Table (i : Ino) : Event → Prop
  | .wsect sec => sec.toNat = inodeBlock i
  | .winode bn inum _ => bn.toNat = inodeBlock i ∧ inum.toNat = i.val
  | _ => False

theorem Fs.Frame.low (h : fs.Frame Event.Data fs') {b : Nat} (hb : b < metaNum) :
    fs'.image.blk b = fs.image.blk b := by
  apply h.blk
  rintro sec ⟨hlow, -⟩ rfl
  omega

theorem Fs.Frame.ino (h : fs.Frame Event.Data fs') : fs'.image.ino = fs.image.ino := by
  funext i
  unfold Image.ino
  rw [h.low (inodeBlock_lt i)]

theorem Fs.Ok.note (h : fs.Ok) {e : Event} (he : E e) : fs.Frame E (fs.note e) :=
  ⟨⟨h.sb, h.size⟩, rfl, fun _ _ => rfl, [e], rfl, by simpa⟩

theorem Fs.Ok.wsect (h : fs.Ok) {sec : Word} (hsec : sec.toNat < fsSize) (buf : Buf)
    (hE : E (.wsect sec)) : fs.Frame E (wsect sec buf fs) where
  ok := ⟨h.sb, wsect_size hsec buf h.size⟩
  freeinode := rfl
  blk b hb := by rw [wsect_blk hsec, Function.update_of_ne (Ne.symm (hb sec hE))]
  log := ⟨[.wsect sec], rfl, by simpa⟩

section Written
variable {b : Nat} {buf : Buf}

/-- A block below the data blocks written. -/
theorem dataBlk_low (hblk : fs'.image.blk = Function.update fs.image.blk b buf) (hb : b < metaNum) :
    fs'.image.dataBlk = fs.image.dataBlk := by
  funext b'
  unfold Image.dataBlk
  rw [hblk]
  split_ifs with hlow
  · rfl
  · rw [Function.update_of_ne (by omega)]

/-- A data block written. -/
theorem diskOn_update (hblk : fs'.image.blk = Function.update fs.image.blk b buf)
    (hfree : fs'.freeblock = fs.freeblock) (hb : metaNum ≤ b) (T : Ino → Dinode) :
    fs'.diskOn T = (fs.diskOn T).write b buf := by
  have hdata : fs'.image.dataBlk = Function.update fs.image.dataBlk b buf := by
    funext b'
    unfold Image.dataBlk
    rw [hblk]
    by_cases hbb : b' = b
    · subst hbb
      rw [if_neg (by omega), Function.update_self, Function.update_self]
    · rw [Function.update_of_ne hbb, Function.update_of_ne hbb]
  unfold Fs.diskOn Disk.write
  simp only [hdata, hfree]

end Written

theorem Fs.Ok.bump (h : fs.Ok) (hE : E (.alloc fs.freeblock)) : fs.Frame E fs.bump :=
  ⟨⟨h.sb, h.size⟩, rfl, fun _ _ => rfl, [.alloc fs.freeblock], rfl, by simpa⟩

/-! ## Inodes -/

theorem iblock_super (inum : Word) :
    (iblock inum superblock).toNat = 2 + logSize + inum.toNat / ipb := by
  have hlt := inum.isLt
  have hstart : superblock.inodestart = 32#32 := by decide
  have h8 : (8 : Word).toNat = 8 := rfl
  have h32 : (32#32).toNat = 32 := rfl
  unfold iblock logSize ipb
  rw [hstart, BitVec.toNat_add, BitVec.toNat_udiv, h8, h32]
  omega

theorem iblock_toNat (h : fs.Ok) {inum : Word} {i : Ino} (hi : inum.toNat = i.val) :
    (iblock inum fs.sb).toNat = inodeBlock i := by
  rw [h.sb, iblock_super, hi]
  rfl

theorem iblock_lt {inum : Word} {i : Ino} (hi : inum.toNat = i.val) :
    (iblock inum superblock).toNat < fsSize := by
  have hlt := i.lt
  rw [iblock_super, hi]
  unfold logSize ipb fsSize
  omega

theorem slot_toNat {inum : Word} {i : Ino} (hi : inum.toNat = i.val) :
    (inum % 8).toNat = i.val % ipb := by
  unfold ipb
  rw [← hi]
  rfl

/-- The record of an inode number, in the table or behind it. -/
def Fs.record (fs : Fs) (inum : Word) : Dinode :=
  readDinode (fs.image.blk (iblock inum superblock).toNat) (64 * (inum % 8).toNat)

/-- The bytes of a file. -/
def Fs.fileSize (fs : Fs) (inum : Word) : Nat := (fs.record inum).size.toNat

theorem record_fits (inum : Word) : 64 * (inum % 8).toNat + 64 ≤ bSize := by
  have h8 : (8 : Word).toNat = 8 := rfl
  rw [BitVec.toNat_umod, h8]
  unfold bSize
  omega

theorem record_ino (fs : Fs) {inum : Word} {i : Ino} (hi : inum.toNat = i.val) :
    fs.record inum = fs.disk.ino i := by
  unfold Fs.record
  rw [iblock_super, slot_toNat hi, hi]
  rfl

/-- Two numbers with a block in common have different places there. -/
theorem record_apart {inum j : Word} (hne : j ≠ inum)
    (hblock : (iblock j superblock).toNat = (iblock inum superblock).toNat) :
    64 * (inum % 8).toNat + 64 ≤ 64 * (j % 8).toNat ∨
      64 * (j % 8).toNat + 64 ≤ 64 * (inum % 8).toNat := by
  have h8 : (8 : Word).toNat = 8 := rfl
  have hval : j.toNat ≠ inum.toNat := fun heq => hne (BitVec.eq_of_toNat_eq heq)
  rw [iblock_super, iblock_super] at hblock
  rw [BitVec.toNat_umod, BitVec.toNat_umod, h8]
  unfold ipb at hblock
  omega

theorem rinode_record (junk : Junk) (h : fs.Covers) {inum : Word}
    (hlt : (iblock inum superblock).toNat < fsSize) :
    rinode junk inum fs = (fs.record inum, fs) := by
  obtain ⟨buf', hread, hclip⟩ := rsect_spec hlt (junk .rinode fs.log) h.size
  have hrecord : readDinode buf' (64 * (inum % 8).toNat) = fs.record inum := by
    rw [← readDinode_clip (record_fits inum), hclip]
    rfl
  simp only [rinode, h.sb, hread, hrecord]

theorem clip_writeDinode {buf : Buf} {a : Nat} (d : Dinode) (ha : a + 64 ≤ bSize) :
    clip (writeDinode buf a d) = writeDinode (clip buf) a d := by
  funext o
  by_cases ho : o < bSize
  · rw [clip, if_pos ho, writeDinode, writeDinode, clip, if_pos ho]
  · rw [clip, if_neg ho, writeDinode, if_neg (by omega), clip, if_neg ho]

/-- `winode` writes the block of the inode, with the record in it. -/
theorem winode_blk (junk : Junk) (h : fs.Covers) {inum : Word}
    (hlt : (iblock inum superblock).toNat < fsSize) (d : Dinode) :
    (∃ buf, winode junk inum d fs = (wsect (iblock inum superblock) buf fs).note
      (.winode (iblock inum superblock) inum d)) ∧
      (winode junk inum d fs).image.blk = Function.update fs.image.blk
        (iblock inum superblock).toNat (writeDinode (fs.image.blk (iblock inum superblock).toNat)
          (64 * (inum % 8).toNat) d) := by
  obtain ⟨buf', hread, hclip⟩ := rsect_spec hlt (junk .winode fs.log) h.size
  have heq : winode junk inum d fs = (wsect (iblock inum superblock)
      (writeDinode buf' (64 * (inum % 8).toNat) d) fs).note
        (.winode (iblock inum superblock) inum d) := by
    simp only [winode, h.sb, hread]
  refine ⟨⟨_, heq⟩, ?_⟩
  rw [heq]
  show (wsect _ _ fs).image.blk = _
  rw [wsect_blk hlt, clip_writeDinode d (record_fits inum), hclip]

/-- `winode` writes one record. -/
theorem winode_record (junk : Junk) (h : fs.Covers) {inum : Word}
    (hlt : (iblock inum superblock).toNat < fsSize) (d : Dinode) (j : Word) :
    (winode junk inum d fs).record j = if j = inum then d else fs.record j := by
  show readDinode ((winode junk inum d fs).image.blk _) _ = _
  rw [(winode_blk junk h hlt d).2]
  by_cases hj : j = inum
  · subst hj
    rw [if_pos rfl, Function.update_self, readDinode_writeDinode]
  rw [if_neg hj]
  by_cases hb : (iblock j superblock).toNat = (iblock inum superblock).toNat
  · -- a neighbour in the block
    rw [hb, Function.update_self, readDinode_writeDinode_ne (record_apart hj hb), ← hb]
    rfl
  · rw [Function.update_of_ne hb]
    rfl

theorem winode_ok (junk : Junk) (h : fs.Ok) {inum : Word}
    (hlt : (iblock inum superblock).toNat < fsSize) (d : Dinode) :
    (winode junk inum d fs).Ok ∧ (winode junk inum d fs).freeinode = fs.freeinode ∧
      (winode junk inum d fs).freeblock = fs.freeblock := by
  obtain ⟨⟨buf, heq⟩, -⟩ := winode_blk junk h.covers hlt d
  have hframe := h.wsect (E := fun _ => True) hlt buf trivial
  rw [heq]
  exact ⟨⟨hframe.ok.sb, hframe.ok.size⟩, rfl, rfl⟩

theorem rinode_eq (junk : Junk) (h : fs.Ok) {inum : Word} {i : Ino} (hi : inum.toNat = i.val) :
    rinode junk inum fs = (fs.disk.ino i, fs) := by
  rw [rinode_record junk h.covers (iblock_lt hi), record_ino fs hi]

/-- `winode` writes one entry of the table. -/
theorem winode_spec (junk : Junk) (h : fs.Ok) {inum : Word} {i : Ino} (hi : inum.toNat = i.val)
    (d : Dinode) : (winode junk inum d fs).disk = fs.diskWith i d ∧
      fs.Frame (Event.Table i) (winode junk inum d fs) ∧
      (winode junk inum d fs).log =
        .winode (iblock inum fs.sb) inum d :: .wsect (iblock inum fs.sb) :: fs.log := by
  have hblock : (iblock inum superblock).toNat = inodeBlock i := h.sb ▸ iblock_toNat h hi
  obtain ⟨⟨buf, heq⟩, hblk⟩ := winode_blk junk h.covers (iblock_lt hi) d
  have hframe := h.wsect (E := Event.Table i) (iblock_lt hi) buf hblock
  have hino : (winode junk inum d fs).disk.ino = Function.update fs.image.ino i d := by
    funext j
    have hj : (BitVec.ofNat 32 j.val).toNat = j.val := by
      have := j.lt
      rw [BitVec.toNat_ofNat]
      omega
    rw [← record_ino _ hj, winode_record junk h.covers (iblock_lt hi)]
    by_cases hji : j = i
    · subst hji
      rw [if_pos (BitVec.eq_of_toNat_eq (hj.trans hi.symm)), Function.update_self]
    · have hne : BitVec.ofNat 32 j.val ≠ inum := by
        rintro rfl
        exact hji (Fin.ext (hj.symm.trans hi))
      rw [if_neg hne, Function.update_of_ne hji]
      exact record_ino fs hj
  have hdata : (winode junk inum d fs).image.dataBlk = fs.image.dataBlk :=
    dataBlk_low hblk (hblock ▸ inodeBlock_lt i)
  have hfree : (winode junk inum d fs).freeblock = fs.freeblock := by rw [heq]; rfl
  refine ⟨?_, ?_, ?_⟩
  · unfold Fs.diskWith
    show Disk.mk (winode junk inum d fs).disk.ino _ _ = _
    rw [hino, hdata, hfree]
    rfl
  · rw [heq]
    exact hframe.trans (hframe.ok.note ⟨hblock, hi⟩)
  · rw [heq, h.sb]
    rfl

/-! ## A block of a file -/

variable {T : Ino → Dinode} {i : Ino} {din : Dinode}

theorem diskFor_wsect {sec : Word} (hlow : metaNum ≤ sec.toNat) (hsec : sec.toNat < fsSize)
    (buf : Buf) (fs : Fs) (T : Ino → Dinode) (i : Ino) (din : Dinode) :
    (wsect sec buf fs).diskFor T i din = (fs.diskFor T i din).write sec.toNat (clip buf) :=
  diskOn_update (wsect_blk hsec buf fs) rfl hlow _

theorem diskFor_bump (fs : Fs) (T : Ino → Dinode) (i : Ino) (din : Dinode) (k : Fin 13) :
    fs.bump.diskFor T i (din.setAddr k fs.freeblock) = (fs.diskFor T i din).setAddr i k := by
  unfold Fs.diskFor Fs.diskOn Disk.setAddr
  simp only [Function.update_self, Function.update_idem]
  rfl

theorem diskFor_addr (fs : Fs) (T : Ino → Dinode) (i : Ino) (din : Dinode) (k : Fin 13) :
    (fs.diskFor T i din).val (.addr i k) = (din.addrs k).toNat := by
  simp [Disk.val, Fs.diskOn]

theorem word_eq_zero {x : Word} : x = 0 ↔ x.toNat = 0 :=
  ⟨fun h => by rw [h]; rfl, fun h => BitVec.eq_of_toNat_eq h⟩

/-- The indirect block, allocated if it is missing. -/
theorem indirect_spec (n : Word) (h : fs.Ok)
    (hroom : (din.addrs 12).toNat = 0 → fs.freeblock.toNat < fsSize) {din₁ : Dinode} {fs₁ : Fs}
    (heq : (if xint (din.addrs 12) = 0 then (din.setAddr 12 (xint fs.freeblock), fs.bump)
      else (din, fs)) = (din₁, fs₁)) :
    fs.Frame Event.Data fs₁ ∧
      (if (fs.diskFor T i { din with size := n }).val (.addr i 12) = 0 then
        (fs.diskFor T i { din with size := n }).setAddr i 12
      else fs.diskFor T i { din with size := n }) = fs₁.diskFor T i { din₁ with size := n } := by
  have hval : (fs.diskFor T i { din with size := n }).val (.addr i 12) = (din.addrs 12).toNat :=
    diskFor_addr ..
  simp only [xint_eq] at heq
  split_ifs at heq with h0
  · simp only [Prod.mk.injEq] at heq
    obtain ⟨rfl, rfl⟩ := heq
    rw [if_pos (hval.trans (word_eq_zero.mp h0))]
    exact ⟨h.bump (hroom (word_eq_zero.mp h0)), (diskFor_bump fs T i { din with size := n } _).symm⟩
  · simp only [Prod.mk.injEq] at heq
    obtain ⟨rfl, rfl⟩ := heq
    rw [if_neg (hval ▸ mt word_eq_zero.mpr h0)]
    exact ⟨Fs.Frame.refl _ h, rfl⟩

/-- Behind that the indirect block is there, and the places for the other blocks are as they were. -/
theorem indirect_ensured {D : Disk} (n : Word) (h : fs.Ok) (hD : fs.diskFor T i { din with size := n } = D)
    (hs : D.Sound) {fbn : Nat} (hfbn : directNum ≤ fbn)
    (hroom : (din.addrs 12).toNat = 0 → fs.freeblock.toNat < fsSize) {din₁ : Dinode} {fs₁ : Fs}
    (heq : (if xint (din.addrs 12) = 0 then (din.setAddr 12 (xint fs.freeblock), fs.bump)
      else (din, fs)) = (din₁, fs₁)) :
    fs.Frame Event.Data fs₁ ∧ (fs₁.diskFor T i { din₁ with size := n }).Sound ∧ din₁.addrs 12 ≠ 0 ∧
      (if D.val (.addr i 12) = 0 then D.setAddr i 12 else D) = fs₁.diskFor T i { din₁ with size := n } ∧
      (fs₁.diskFor T i { din₁ with size := n }).val (blockRef i fbn) = D.val (blockRef i fbn) ∧
      fs₁.freeblock.toNat = fs.freeblock.toNat + if D.val (.addr i 12) = 0 then 1 else 0 := by
  subst hD
  have hval : (fs.diskFor T i { din with size := n }).val (.addr i 12) = (din.addrs 12).toNat :=
    diskFor_addr ..
  obtain ⟨hframe, hdisk⟩ := indirect_spec n h hroom heq
  obtain ⟨hext, h12, hsame, hfree⟩ := Disk.ensure_indirect hs i hfbn (hval ▸ hroom) hdisk
  rw [diskFor_addr] at h12
  exact ⟨hframe, hext.sound, mt word_eq_zero.mp h12, hdisk, hsame, hfree⟩

/-- The entry in the indirect block that has been read. -/
theorem entry_read (n : Word) (buf : Buf) (j : Fin 128) (h : fs.Ok)
    (hs : (fs.diskFor T i { din with size := n }).Sound) (h12 : din.addrs 12 ≠ 0) {indirect : Buf}
    {fs₁ : Fs} (hread : rsect (din.addrs 12) buf fs = (indirect, fs₁)) :
    fs₁ = fs ∧ (metaNum ≤ (din.addrs 12).toNat ∧ (din.addrs 12).toNat < fsSize) ∧
      clip indirect = fs.disk.blk (din.addrs 12).toNat ∧
      (fs.diskFor T i { din with size := n }).val (.entry i j) =
        (load32 indirect (4 * j.val)).toNat := by
  have haddr : ((fs.diskFor T i { din with size := n }).ino i).addrs 12 = din.addrs 12 := by
    simp [Fs.diskOn]
  have hval : (fs.diskFor T i { din with size := n }).val (.addr i 12) = (din.addrs 12).toNat :=
    diskFor_addr ..
  have hrange := hs.nums.lt (hval ▸ mt word_eq_zero.mpr h12)
  have hhigh := hs.high
  rw [hval] at hrange
  have hsec : (din.addrs 12).toNat < fsSize := by omega
  have hj : 4 * j.val + 4 ≤ bSize := by
    have := j.isLt
    unfold bSize
    omega
  obtain ⟨indirect₁, hread₁, hclip⟩ := rsect_spec hsec buf h.size.ge
  obtain ⟨rfl, rfl⟩ := Prod.mk.inj (hread₁.symm.trans hread)
  have hblk : fs.disk.blk (din.addrs 12).toNat = fs.image.blk (din.addrs 12).toNat :=
    if_neg (by omega)
  rw [← hblk] at hclip
  refine ⟨rfl, ⟨hrange.1, hsec⟩, hclip, ?_⟩
  rw [← load32_clip hj, hclip]
  simp only [Disk.val, haddr, if_neg h12]
  rfl

/-- The entry of the indirect block, allocated and written if it is missing. -/
theorem entry_spec (n : Word) (buf : Buf) (j : Fin 128) (h : fs.Ok)
    (hs : (fs.diskFor T i { din with size := n }).Sound) (h12 : din.addrs 12 ≠ 0)
    (hroom : (fs.diskFor T i { din with size := n }).val (.entry i j) = 0 →
      fs.freeblock.toNat < fsSize) {indirect : Buf} {fs₁ : Fs}
    (hread : rsect (din.addrs 12) buf fs = (indirect, fs₁))
    {x : Word} {din' : Dinode} {indirect' : Buf} {fs' : Fs}
    (heq : (if load32 indirect (4 * j.val) = 0 then
        (load32 (store32 indirect (4 * j.val) fs₁.freeblock) (4 * j.val), din,
          store32 indirect (4 * j.val) fs₁.freeblock,
          wsect (din.addrs 12) (store32 indirect (4 * j.val) fs₁.freeblock) fs₁.bump)
      else (load32 indirect (4 * j.val), din, indirect, fs₁)) = (x, din', indirect', fs'))
    {D' : Disk} (hD' : (if (fs.diskFor T i { din with size := n }).val (.entry i j) = 0 then
        (fs.diskFor T i { din with size := n }).setEntry i j
      else fs.diskFor T i { din with size := n }) = D') :
    fs.Frame Event.Data fs' ∧ fs'.diskFor T i { din' with size := n } = D' ∧
      x.toNat = D'.val (.entry i j) := by
  obtain ⟨rfl, hrange, hclip, hval⟩ := entry_read n buf j h hs h12 hread
  have haddr : ((fs₁.diskFor T i { din with size := n }).ino i).addrs 12 = din.addrs 12 := by
    simp [Fs.diskOn]
  have h12' : (fs₁.diskFor T i { din with size := n }).val (.addr i 12) ≠ 0 := by
    rw [diskFor_addr]
    exact mt word_eq_zero.mpr h12
  have hj : 4 * j.val + 4 ≤ bSize := by
    have := j.isLt
    unfold bSize
    omega
  rw [hval] at hD' hroom
  split_ifs at heq with h0
  · have h0' := word_eq_zero.mp h0
    rw [if_pos h0'] at hD'
    simp only [Prod.mk.injEq] at heq
    obtain ⟨rfl, rfl, -, rfl⟩ := heq
    have hbump := h.bump (E := Event.Data) (hroom h0')
    refine ⟨hbump.trans (hbump.ok.wsect hrange.2 _ hrange), ?_, ?_⟩
    · rw [← hD', diskFor_wsect hrange.1 hrange.2, clip_store32 _ hj, hclip]
      unfold Disk.setEntry
      rw [haddr]
      rfl
    · have hgrow := hs.setEntry h12' (hval.trans h0')
      rw [load32_store32_index, ← hD', hgrow.val, Function.update_self]
      rfl
  · rw [if_neg (mt word_eq_zero.mpr h0)] at hD'
    simp only [Prod.mk.injEq] at heq
    obtain ⟨rfl, rfl, -, rfl⟩ := heq
    subst hD'
    exact ⟨Fs.Frame.refl _ h, rfl, hval.symm⟩

/-- `iappendBlock` is `Disk.ensure` on the inode in memory. -/
theorem iappendBlock_spec {D : Disk} (n : Word) (indirect : Buf) {fbn : Nat}
    (hfbn : fbn < maxFile) (h : fs.Ok) (hD : fs.diskFor T i { din with size := n } = D)
    (hs : D.Sound) (hroom : D.free.toNat + D.missing i fbn ≤ fsSize)
    {x : Word} {din' : Dinode} {indirect' : Buf} {fs' : Fs}
    (heq : iappendBlock fbn din indirect fs = (x, din', indirect', fs')) :
    fs.Frame Event.Data fs' ∧ fs'.diskFor T i { din' with size := n } = D.ensure i fbn ∧
      x.toNat = (D.ensure i fbn).val (blockRef i fbn) := by
  subst hD
  unfold iappendBlock at heq
  by_cases hdir : fbn < directNum
  · rw [dif_pos hdir] at heq
    have href : blockRef i fbn = .addr i ⟨fbn, direct_lt hdir⟩ := dif_pos hdir
    have hval : (fs.diskFor T i { din with size := n }).val
        (.addr i ⟨fbn, direct_lt hdir⟩) =
          (din.addrs ⟨fbn, direct_lt hdir⟩).toNat := diskFor_addr ..
    simp only [xint_eq] at heq
    unfold Disk.missing at hroom
    rw [href] at hroom ⊢
    rw [Disk.ensure, dif_pos hdir]
    split_ifs at heq with h0
    · have h0' := hval.trans (word_eq_zero.mp h0)
      simp only [Prod.mk.injEq] at heq
      obtain ⟨rfl, rfl, -, rfl⟩ := heq
      rw [if_pos h0'] at hroom ⊢
      refine ⟨h.bump (show fs.freeblock.toNat < fsSize from ?_),
        diskFor_bump fs T i { din with size := n } _, ?_⟩
      · change fs.freeblock.toNat + _ ≤ fsSize at hroom
        omega
      · rw [← diskFor_bump, diskFor_addr]
        rfl
    · simp only [Prod.mk.injEq] at heq
      obtain ⟨rfl, rfl, -, rfl⟩ := heq
      rw [if_neg (hval ▸ mt word_eq_zero.mpr h0)]
      exact ⟨Fs.Frame.refl _ h, rfl, hval.symm⟩
  · rw [dif_neg hdir] at heq
    have hle : directNum ≤ fbn := by omega
    have href : blockRef i fbn = .entry i (Fin.ofNat 128 (fbn - directNum)) := dif_neg hdir
    have hindex := entryIndex_val hfbn
    unfold Disk.missing at hroom
    rw [href] at hroom ⊢
    rw [Disk.ensure, dif_neg hdir]
    simp only [hle, true_and] at hroom
    generalize hpair : (if xint (din.addrs 12) = 0 then
      (din.setAddr 12 (xint fs.freeblock), fs.bump) else (din, fs)) = pair at heq
    obtain ⟨din₁, fs₁⟩ := pair
    have hval12 : (fs.diskFor T i { din with size := n }).val (.addr i 12) = (din.addrs 12).toNat :=
      diskFor_addr ..
    have hmiss : (din.addrs 12).toNat = 0 → fs.freeblock.toNat < fsSize := by
      intro h0
      rw [if_pos (hval12.trans h0)] at hroom
      change fs.freeblock.toNat + _ ≤ fsSize at hroom
      omega
    obtain ⟨hframe, hsound, h12, hdisk, hsame, hfree⟩ := indirect_ensured n h rfl hs hle hmiss hpair
    rw [href] at hsame
    generalize Fin.ofNat 128 (fbn - directNum) = j at hindex hroom hsame ⊢
    simp only [xint_eq, ← hindex] at heq
    generalize hread : rsect (din₁.addrs 12) indirect fs₁ = read at heq
    obtain ⟨indirect₁, fs₂⟩ := read
    obtain ⟨hframe', hdisk', hx⟩ := entry_spec n indirect j hframe.ok hsound h12 (fun h0 => by
      rw [if_pos (hsame.symm.trans h0)] at hroom
      change fs.freeblock.toNat + _ ≤ fsSize at hroom
      omega) hread heq rfl
    simp only [hdisk]
    exact ⟨hframe.trans hframe', hdisk', hx⟩

end TuixOS.Mkfs
