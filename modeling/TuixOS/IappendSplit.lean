import TuixOS.CrowdedRoot

/-!
# Splitting an `iappend`

Two calls of `iappend` leave the image that one call with both strings leaves: the disk is built byte by
byte (`Disk.append`), and of the blocks below it a call rewrites one inode record (`Image.over`). It
takes inodes that lie below the data blocks; `ialloc` does not see to that, and from inode 288 on the
records share their blocks with the directory (`iappend_split_crowded`).
-/

namespace TuixOS.Mkfs

open Lib

variable {fs fs' : Fs} {junk : Junk} {i : Ino} {inum : Word}

/-! ## The image behind a call -/

theorem Image.ext_blk {img img' : Image} (hsize : img.size = img'.size) (hblk : img.blk = img'.blk) :
    img = img' := by
  obtain ⟨n, data⟩ := img
  obtain ⟨n', data'⟩ := img'
  obtain rfl : n = n' := hsize
  congr 1
  funext a
  have ha := congrFun (congrFun hblk (a / bSize)) (a % bSize)
  have hlt : a % bSize < bSize := Nat.mod_lt _ (by decide)
  simp only [Image.blk, clip_lt hlt, Nat.div_add_mod] at ha
  exact ha

/-- The blocks with the data of `D` and its inode `i`. -/
def Image.over (img : Image) (i : Ino) (D : Disk) : Nat → Buf := fun b =>
  if b = inodeBlock i then writeDinode (img.blk b) (64 * (i.val % ipb)) (D.ino i)
  else if b < metaNum then img.blk b
  else D.blk b

theorem writeDinode_twice (buf : Buf) (a : Nat) (d d' : Dinode) :
    writeDinode (writeDinode buf a d) a d' = writeDinode buf a d' := by
  funext o
  unfold writeDinode
  split_ifs <;> rfl

/-- The record written in between does not show. -/
theorem Image.over_over {img img' : Image} {D : Disk} (h : img'.blk = img.over i D) (D' : Disk) :
    img'.over i D' = img.over i D' := by
  funext b
  unfold Image.over
  rw [h, Image.over]
  split_ifs
  · exact writeDinode_twice ..
  · rfl
  · rfl

theorem winode_over (junk : Junk) (h : fs.Ok) (hi : inum.toNat = i.val) (d : Dinode) :
    (winode junk inum d fs).image.blk = fs.image.over i (fs.diskWith i d) := by
  have hblock : (iblock inum superblock).toNat = inodeBlock i := h.sb ▸ iblock_toNat h hi
  rw [(winode_blk junk h.covers (iblock_lt hi) d).2, hblock, slot_toNat hi]
  funext b
  unfold Image.over
  by_cases hb : b = inodeBlock i
  · subst hb
    rw [if_pos rfl, Function.update_self]
    simp [Fs.diskWith]
  · rw [if_neg hb, Function.update_of_ne hb]
    split_ifs with hlow
    · rfl
    · exact (if_neg hlow).symm

/-- The blocks that `n` more bytes take are on the disk. -/
def Fs.HasRoom (fs : Fs) (inum : Word) (n : Nat) : Prop :=
  fs.freeblock.toNat + blocksOf (fs.fileSize inum + n) ≤ fsSize + blocksOf (fs.fileSize inum)

theorem fileSize_eq (fs : Fs) (hi : inum.toNat = i.val) : fs.fileSize inum = fs.disk.size i := by
  rw [Fs.fileSize, record_ino fs hi]
  rfl

theorem hasRoom_room {n : Nat} (hi : inum.toNat = i.val)
    (hmax : fs.disk.size i + n ≤ maxFile * bSize) (h : fs.HasRoom inum n) : fs.Room i n := by
  unfold Fs.HasRoom at h
  rw [fileSize_eq fs hi] at h
  exact ⟨hmax, h⟩

/-- The state behind calls that append `xs` to a file. -/
structure Extended (i : Ino) (xs : List Byte) (fs fs' : Fs) : Prop where
  inv : fs'.Inv
  freeinode : fs'.freeinode = fs.freeinode
  disk : fs'.disk = fs.disk.append i xs
  blk : fs'.image.blk = fs.image.over i (fs.disk.append i xs)

theorem Extended.trans {fs'' : Fs} {xs ys : List Byte} (h : Extended i xs fs fs')
    (h' : Extended i ys fs' fs'') : Extended i (xs ++ ys) fs fs'' where
  inv := h'.inv
  freeinode := h'.freeinode.trans h.freeinode
  disk := by rw [h'.disk, h.disk, Disk.append_append]
  blk := by rw [h'.blk, Image.over_over h.blk, h.disk, Disk.append_append]

/-- The image and the counter do not depend on how the bytes came. -/
theorem Extended.unique {fs₁ fs₂ : Fs} {xs : List Byte} (h₁ : Extended i xs fs fs₁)
    (h₂ : Extended i xs fs fs₂) : fs₁.image = fs₂.image ∧ fs₁.freeblock = fs₂.freeblock := by
  constructor
  · exact Image.ext_blk (h₁.inv.ok.size.trans h₂.inv.ok.size.symm) (h₁.blk.trans h₂.blk.symm)
  · exact congrArg Disk.free (h₁.disk.trans h₂.disk.symm)

/-- **`iappend`** as a function of the disk. -/
theorem Fs.Inv.iappend_extended (h : fs.Inv) (junk : Junk) (hi : inum.toNat = i.val)
    (hlt : i.val < fs.freeinode.toNat) (xp : List Byte) (hroom : fs.Room i xp.length) :
    ∃ fs', Mkfs.iappend junk inum xp fs = .ok fs' ∧ Extended i xp fs fs' := by
  obtain ⟨fs₁, d, hcall, hframe, hdisk⟩ :=
    iappend_spec junk hi h.ok h.disk hroom.file hroom.disk
  obtain ⟨fs₂, d₂, hcall₂, -, -, hinv⟩ := h.iappend junk hi hlt xp hroom.file hroom.disk
  rw [← Except.ok.inj (hcall.symm.trans hcall₂)] at hinv
  obtain ⟨hdisk₁, hframe₁, -⟩ := winode_spec junk hframe.ok hi d
  refine ⟨_, hcall, hinv, hframe₁.freeinode.trans hframe.freeinode, hdisk, ?_⟩
  rw [winode_over junk hframe.ok hi, ← hdisk₁, hdisk]
  funext b
  unfold Image.over
  split_ifs with hb hlow
  · rw [hframe.low (hb ▸ inodeBlock_lt i)]
  · exact hframe.low hlow
  · rfl

/-- Room for two strings is room for the first, and room for the second behind it. -/
theorem Fs.Room.first {n m : Nat} (h : fs.Room i (n + m)) : fs.Room i n := by
  obtain ⟨hfile, hdisk⟩ := h
  have hmono : blocksOf (fs.disk.size i + n) ≤ blocksOf (fs.disk.size i + (n + m)) :=
    blocksOf_mono (by omega)
  exact ⟨by omega, by omega⟩

theorem Extended.room {xs : List Byte} {m : Nat} (hext : Extended i xs fs fs') (h : fs.Inv)
    (hroom : fs.Room i (xs.length + m)) : fs'.Room i m := by
  have happ := Disk.append_appended h.disk i hroom.first.file hroom.first.disk
  rw [← hext.disk] at happ
  have hsize := happ.size
  have hfree : fs'.freeblock.toNat + blocksOf (fs.disk.size i) =
      fs.freeblock.toNat + blocksOf (fs'.disk.size i) := happ.free
  obtain ⟨hfile, hdisk⟩ := hroom
  rw [← Nat.add_assoc, ← hsize] at hfile hdisk
  exact ⟨hfile, by omega⟩

/-- The calls for the pieces of a file. -/
theorem Fs.Inv.pieces_extended (h : fs.Inv) (junk : Junk) (hi : inum.toNat = i.val)
    (hlt : i.val < fs.freeinode.toNat) (c : List Byte) (cs : List (List Byte))
    (hroom : fs.Room i (c :: cs).flatten.length) :
    ∃ fs', (c :: cs).foldlM (fun fs c => Mkfs.iappend junk inum c fs) fs = .ok fs' ∧
      Extended i (c :: cs).flatten fs fs' := by
  induction cs generalizing c fs with
  | nil =>
    rw [List.flatten_singleton] at hroom ⊢
    obtain ⟨fs₁, hcall, hext⟩ := h.iappend_extended junk hi hlt c hroom
    refine ⟨fs₁, ?_, hext⟩
    rw [List.foldlM_cons, hcall]
    rfl
  | cons c' cs ih =>
    rw [List.flatten_cons] at hroom ⊢
    rw [List.length_append] at hroom
    obtain ⟨fs₁, hcall, hext⟩ := h.iappend_extended junk hi hlt c hroom.first
    obtain ⟨fs₂, hrest, hext'⟩ :=
      ih hext.inv (hext.freeinode ▸ hlt) c' (hext.room h hroom)
    refine ⟨fs₂, ?_, hext.trans hext'⟩
    rw [List.foldlM_cons, hcall]
    exact hrest

/-! ## Runs -/

/-- A new inode lies below the data blocks, and bytes have room on the disk. -/
def Call.Fits : Call → Fs → Prop
  | .ialloc _, fs => fs.freeinode.toNat < slotsNum
  | .iappend inum xp, fs => fs.HasRoom inum xp.length

theorem callReturns_inv {c : Call} (h : fs.Inv) (hfits : c.Fits fs)
    (hstep : CallReturns junk fs c fs') : fs'.Inv := by
  obtain ⟨hallow, hexec⟩ := hstep
  cases c with
  | ialloc type =>
    have hcall : Mkfs.ialloc junk type fs = (fs.freeinode, fs') :=
      Prod.ext rfl (Except.ok.inj hexec)
    exact (ialloc_spec junk type h (i := ⟨_, hfits⟩) rfl hcall).2.1
  | iappend inum xp =>
    obtain ⟨-, hlt⟩ := hallow
    have hslot : inum.toNat < slotsNum := Nat.lt_of_lt_of_le hlt h.last
    obtain ⟨hmax, -⟩ := iappend_returns junk (i := ⟨_, hslot⟩) rfl h.ok h.disk hexec
    obtain ⟨fs₁, hcall, hext⟩ := h.iappend_extended junk (i := ⟨_, hslot⟩) rfl hlt xp
      (hasRoom_room rfl hmax hfits)
    obtain rfl := Except.ok.inj (hcall.symm.trans hexec)
    exact hext.inv

/-- **`iappend` splits freely** in every state that calls with room lead to: two calls, and any calls
for pieces of the bytes, leave the image and the counter of one call. -/
theorem iappend_split {calls : List Call}
    (hrun : Run (fun fs c fs' => c.Fits fs ∧ CallReturns junk fs c fs') format calls fs)
    (halloc : inum.toNat < fs.freeinode.toNat) (a b : List Byte)
    (hmax : fs.fileSize inum + a.length + b.length ≤ maxFile * bSize)
    (hroom : fs.HasRoom inum (a.length + b.length)) (junk₁ junk₂ : Junk) :
    ∃ fs₁ fs₂ fs₃, iappend junk₁ inum a fs = .ok fs₁ ∧ iappend junk₁ inum b fs₁ = .ok fs₂ ∧
      iappend junk₂ inum (a ++ b) fs = .ok fs₃ ∧
      fs₂.image = fs₃.image ∧ fs₂.freeblock = fs₃.freeblock ∧
      ∀ chunks, chunks ≠ [] → chunks.flatten = a ++ b →
        ∃ fs₄, chunks.foldlM (fun fs c => iappend junk₁ inum c fs) fs = .ok fs₄ ∧
          fs₄.image = fs₃.image ∧ fs₄.freeblock = fs₃.freeblock := by
  have h : fs.Inv := hrun.state_invariant format_inv fun c t t' hI hstep =>
    callReturns_inv hI hstep.1 hstep.2
  have hslot : inum.toNat < slotsNum := Nat.lt_of_lt_of_le halloc h.last
  have hi : inum.toNat = (⟨inum.toNat, hslot⟩ : Ino).val := rfl
  generalize (⟨inum.toNat, hslot⟩ : Ino) = i at hi
  rw [fileSize_eq fs hi, Nat.add_assoc] at hmax
  have hroom' := hasRoom_room hi hmax hroom
  rw [hi] at halloc
  obtain ⟨fs₁, hcall₁, hext₁⟩ := h.iappend_extended junk₁ hi halloc a hroom'.first
  obtain ⟨fs₂, hcall₂, hext₂⟩ := hext₁.inv.iappend_extended junk₁ hi (hext₁.freeinode ▸ halloc) b
    (hext₁.room h hroom')
  rw [← List.length_append] at hroom'
  obtain ⟨fs₃, hcall₃, hext₃⟩ := h.iappend_extended junk₂ hi halloc (a ++ b) hroom'
  obtain ⟨himage, hfree⟩ := (hext₁.trans hext₂).unique hext₃
  refine ⟨fs₁, fs₂, fs₃, hcall₁, hcall₂, hcall₃, himage, hfree, fun chunks hne hflat => ?_⟩
  obtain ⟨c, cs, rfl⟩ := List.exists_cons_of_ne_nil hne
  rw [← hflat] at hroom' hext₃
  obtain ⟨fs₄, hcall₄, hext₄⟩ := h.pieces_extended junk₁ hi halloc c cs hroom'
  exact ⟨fs₄, hcall₄, hext₄.unique hext₃⟩

/-- Two bytes in the new root. -/
theorem iappend_split_root : ∃ fs fs₁ fs₂ fs₃,
    Run (CallReturns fun _ _ _ => 0) format [.ialloc tDir] fs ∧
      iappend (fun _ _ _ => 0) 1 [7] fs = .ok fs₁ ∧ iappend (fun _ _ _ => 0) 1 [8] fs₁ = .ok fs₂ ∧
      iappend (fun _ _ _ => 0) 1 [7, 8] fs = .ok fs₃ ∧
      fs₂.image = fs₃.image ∧ fs₂.freeblock = fs₃.freeblock := by
  have hfits : (Call.ialloc tDir).Fits format := by
    show format.freeinode.toNat < slotsNum
    rw [format_freeinode]
    decide
  obtain ⟨fs, hrun, hroot⟩ : ∃ fs, Run (fun fs c fs' => c.Fits fs ∧
      CallReturns (fun _ _ _ => 0) fs c fs') format [.ialloc tDir] fs ∧ Early 2 0 fs :=
    ⟨_, .single ⟨hfits, trivial, rfl⟩, root_early _⟩
  have hsize := hroot.size
  have hfree := hroot.free
  obtain ⟨fs₁, fs₂, fs₃, hcall₁, hcall₂, hcall₃, himage, hcount, -⟩ := iappend_split hrun
    (show (1 : Word).toNat < _ by rw [hroot.next]; decide) [7] [8] (by rw [hsize]; decide)
    (by
      unfold Fs.HasRoom
      rw [hfree, hsize]
      decide) (fun _ _ _ => 0) fun _ _ _ => 0
  exact ⟨fs, fs₁, fs₂, fs₃, hrun.mono fun _ _ _ h => h.2, hcall₁, hcall₂, hcall₃, himage, hcount⟩

/-! ## An inode in its own indirect block -/

theorem rsect_image (sec : Word) (buf : Buf) (fs : Fs) :
    (rsect sec buf fs).2.image = fs.image ∧ (rsect sec buf fs).2.sb = fs.sb := by
  unfold rsect
  simp only
  split_ifs <;> exact ⟨rfl, rfl⟩

/-- Entry 2 of block 68 is the size of inode 288. -/
theorem own_entry (h : fs.Covers) (haddr : (fs.record 288).addrs 12 = 68)
    (hpos : 0 < (fs.record 288).size.toNat) (indirect : Buf) : ∃ indirect',
      iappendBlock 14 (fs.record 288) indirect fs =
        ((fs.record 288).size, fs.record 288, indirect', fs) := by
  obtain ⟨indirect', hread, hclip⟩ :=
    rsect_spec (show (68 : Word).toNat < fsSize by decide) indirect h.size
  have hentry : load32 indirect' 8 = (fs.record 288).size := by
    rw [← load32_clip (by decide), hclip]
    rfl
  have hdir : ¬14 < directNum := by decide
  have hne : (68 : Word) ≠ 0 := by decide
  have hsize : (fs.record 288).size ≠ 0 := by
    intro h0
    rw [h0] at hpos
    exact absurd hpos (by decide)
  refine ⟨indirect', ?_⟩
  unfold iappendBlock
  rw [dif_neg hdir]
  simp only [xint_eq, haddr, if_neg hne, hread]
  show (if load32 indirect' 8 = 0 then _ else _) = _
  rw [if_neg (by rwa [hentry])]
  show (load32 indirect' 8, _) = _
  rw [hentry]

/-- The bytes go to the sector of that number. -/
theorem own_append (junk : Junk) (h : fs.Covers) (haddr : (fs.record 288).addrs 12 = 68)
    (hlow : 7168 < (fs.record 288).size.toNat) {p : List Byte} (hne : p ≠ [])
    (hhigh : (fs.record 288).size.toNat + p.length ≤ 7680) :
    ∃ fs', iappend junk 288 p fs = .ok fs' ∧ fs'.Covers ∧ (fs'.record 288).addrs 12 = 68 ∧
      (fs'.record 288).size.toNat = (fs.record 288).size.toNat + p.length ∧
      fs'.image.size = max fs.image.size (bSize * ((fs.record 288).size.toNat + 1)) := by
  have hlt : (iblock 288 superblock).toNat < fsSize := by decide
  have hdiv : ((fs.record 288).size / 512).toNat = 14 := by
    have := List.length_pos_of_ne_nil hne
    rw [off_div]
    unfold bSize
    omega
  have hfile : 7680 ≤ maxFile * bSize := by decide
  obtain ⟨indirect, hblock⟩ := own_entry h haddr (by omega) (junk .indirect fs.log)
  generalize hread : rsect (fs.record 288).size (junk .iappend fs.log) fs = read
  obtain ⟨buf, fs₁⟩ := read
  obtain ⟨himage, hsb⟩ := rsect_image (fs.record 288).size (junk .iappend fs.log) fs
  rw [hread] at himage hsb
  have hcall := iappend_pass junk (rinode_record junk h hlt) hne (by unfold bSize; omega)
    (by have := List.length_pos_of_ne_nil hne; omega) (by rw [hdiv]; exact hblock) hread
  have hoff := sector_far (show (fs.record 288).size.toNat < 2 ^ 23 by omega)
  have hsize : ∀ buf, (wsect (fs.record 288).size buf fs₁).image.size =
      max fs.image.size (bSize * ((fs.record 288).size.toNat + 1)) := by
    intro buf
    rw [Nat.mul_add, ← hoff, ← himage]
    rfl
  have hcovers : ∀ buf, (wsect (fs.record 288).size buf fs₁).Covers := fun buf =>
    ⟨hsb.trans h.sb, by rw [hsize]; exact h.size.trans (Nat.le_max_left ..)⟩
  generalize memmove buf _ p = buf' at hcall
  generalize hd : ({ fs.record 288 with
    size := (fs.record 288).size + BitVec.ofNat 32 p.length } : Dinode) = d at hcall
  have hrecord := winode_record junk (hcovers buf') hlt d 288
  rw [if_pos rfl] at hrecord
  obtain ⟨⟨buf₂, heq⟩, -⟩ := winode_blk junk (hcovers buf') hlt d
  have hsize' : (winode junk 288 d (wsect (fs.record 288).size buf' fs₁)).image.size =
      max fs.image.size (bSize * ((fs.record 288).size.toNat + 1)) := by
    rw [heq, ← hsize buf']
    exact Nat.max_eq_left (Nat.le_trans (by decide) (hcovers buf').size)
  refine ⟨_, hcall, ⟨?_, ?_⟩, ?_, ?_, hsize'⟩
  · rw [heq]
    exact (hcovers buf').sb
  · rw [hsize']
    exact h.size.trans (Nat.le_max_left ..)
  · rw [hrecord, ← hd]
    exact haddr
  · rw [hrecord, ← hd]
    exact (off_add _ (by omega)).2

/-- Names whose bytes lie where the size and the indirect block of inode 288 are. -/
def crowdedName (k : Nat) : List Byte :=
  if k = 288 then List.replicate 6 0x61 ++ [0x01, 0x1C]
  else if k = 291 then List.replicate 10 0x61 ++ [0x44]
  else [0x61]

theorem Late.record_crowded (h : Late crowdedName 292 4 fs) :
    (fs.record 288).size = 7169 ∧ (fs.record 288).addrs 12 = 68 := by
  have h32 : ∀ k < 4, ∀ o, o + 4 ≤ 16 → load32 (fs.image.blk 68) (16 * k + o) =
      load32 (fun o => (entry crowdedName (288 + k)).getD o 0) o := by
    intro k hk o ho
    rw [load32, h.bytes k hk o (by omega), Nat.add_assoc, h.bytes k hk _ (by omega), Nat.add_assoc,
      h.bytes k hk _ (by omega), Nat.add_assoc, h.bytes k hk _ (by omega)]
    rfl
  constructor
  · show load32 (fs.image.blk 68) (16 * 0 + 8) = 7169
    rw [h32 0 (by decide) 8 (by decide)]
    decide
  · show load32 (fs.image.blk 68) (16 * 3 + 12) = 68
    rw [h32 3 (by decide) 12 (by decide)]
    decide

/-- After 290 empty files, two bytes for inode 288 go to two sectors, or to one. -/
theorem iappend_split_crowded : ∃ fs,
    Run (CallReturns fun _ _ _ => 0) format (emptyFiles crowdedName 290) fs ∧
      (288 : Word).toNat < fs.freeinode.toNat ∧
      fs.fileSize 288 + [0x78].length + [0x79].length ≤ maxFile * bSize ∧
      fs.HasRoom 288 ([0x78].length + [0x79].length) ∧
      ∃ fs₁ fs₂ fs₃, iappend (fun _ _ _ => 0) 288 [0x78] fs = .ok fs₁ ∧
        iappend (fun _ _ _ => 0) 288 [0x79] fs₁ = .ok fs₂ ∧
        iappend (fun _ _ _ => 0) 288 ([0x78] ++ [0x79]) fs = .ok fs₃ ∧ fs₂.image ≠ fs₃.image := by
  obtain ⟨fs, hrun, hlate⟩ := emptyFiles_late (fun _ _ _ => 0) crowdedName (m := 4) (by decide)
  obtain ⟨hsize, haddr⟩ := hlate.record_crowded
  have hbytes : (fs.record 288).size.toNat = 7169 := by rw [hsize]; rfl
  have hfree : fs.freeblock.toNat ≤ 69 := by
    rcases hlate.addr with ⟨-, h68⟩ | ⟨-, h69⟩
    · rw [h68]
      decide
    · rw [h69]
      decide
  obtain ⟨fs₁, hcall₁, hcovers₁, haddr₁, hbytes₁, himage₁⟩ := own_append (fun _ _ _ => 0)
    hlate.ok.covers haddr (by omega) (List.cons_ne_nil 0x78 []) (by rw [hbytes]; decide)
  rw [hbytes] at hbytes₁ himage₁
  obtain ⟨fs₂, hcall₂, -, -, -, himage₂⟩ := own_append (fun _ _ _ => 0) hcovers₁ haddr₁
    (by rw [hbytes₁]; decide) (List.cons_ne_nil 0x79 []) (by rw [hbytes₁]; decide)
  rw [hbytes₁] at himage₂
  obtain ⟨fs₃, hcall₃, -, -, -, himage₃⟩ := own_append (fun _ _ _ => 0)
    hlate.ok.covers haddr (by omega) (List.cons_ne_nil 0x78 [0x79]) (by rw [hbytes]; decide)
  rw [hbytes] at himage₃
  refine ⟨fs, hrun, by rw [hlate.next]; decide, ?_, ?_, fs₁, fs₂, fs₃, hcall₁, hcall₂, hcall₃, ?_⟩
  · rw [Fs.fileSize, hbytes]
    decide
  · have hblocks : blocksOf (7169 + 2) = blocksOf 7169 := by decide
    show _ + blocksOf (fs.fileSize 288 + 2) ≤ _
    rw [Fs.fileSize, hbytes, hblocks]
    unfold fsSize
    omega
  · intro heq
    rw [heq, himage₃, himage₁, hlate.ok.size] at himage₂
    exact absurd himage₂ (by decide)

end TuixOS.Mkfs
