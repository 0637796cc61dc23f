import TuixOS.Iappend
import TuixOS.Lib.Run

/-!
# The blocks of the disk

`Fs.Inv` holds of the formatted image and through `ialloc` and `iappend`. So after any calls within
the limits each block handed out has one reference, and `balloc` marks the blocks in use.
-/

namespace TuixOS.Mkfs

open Lib

variable {fs fs' : Fs} {D : Disk} {i : Ino}

/-! ## The invariant -/

structure Fs.Inv (fs : Fs) : Prop where
  ok : fs.Ok
  disk : fs.disk.Inv
  first : 1 ≤ fs.freeinode.toNat
  last : fs.freeinode.toNat ≤ slotsNum
  unused : ∀ i : Ino, fs.freeinode.toNat ≤ i.val → fs.disk.size i = 0

/-- An empty file has no blocks. -/
theorem Disk.Inv.addrs_eq_zero (h : D.Inv) (h0 : D.size i = 0) (k : Fin 13) :
    (D.ino i).addrs k = 0 := by
  by_cases hk : k.val < directNum
  · have hused := h.used i k.val (by unfold maxFile; omega)
    have href : blockRef i k.val = .addr i k := dif_pos hk
    rw [h0, href] at hused
    apply BitVec.eq_of_toNat_eq
    by_contra hne
    exact absurd (hused.mp hne) (by omega)
  · obtain rfl : k = 12 := by
      have := k.isLt
      unfold directNum at hk
      exact Fin.ext (by omega)
    have hind := h.indirect i
    rw [h0] at hind
    apply BitVec.eq_of_toNat_eq
    by_contra hne
    exact absurd (hind.mp hne) (by omega)

/-- An empty file in place of an empty file. -/
theorem Disk.Inv.newIno (h : D.Inv) (h0 : D.size i = 0) {d : Dinode} (hsize : d.size = 0)
    (haddrs : ∀ k, d.addrs k = 0) :
    Disk.Inv { D with ino := Function.update D.ino i d } ∧
      ({ D with ino := Function.update D.ino i d } : Disk).val = D.val ∧
      ∀ j, ({ D with ino := Function.update D.ino i d } : Disk).size j = D.size j := by
  have heq : ∀ j, (Function.update D.ino i d j).addrs = (D.ino j).addrs := by
    intro j
    by_cases hj : j = i
    · subst hj
      funext k
      rw [Function.update_self, haddrs, h.addrs_eq_zero h0]
    · rw [Function.update_of_ne hj]
  have hval : ({ D with ino := Function.update D.ino i d } : Disk).val = D.val := by
    funext r
    cases r <;> simp only [Disk.val, heq]
  have hsizes : ∀ j, ({ D with ino := Function.update D.ino i d } : Disk).size j = D.size j := by
    intro j
    show (Function.update D.ino i d j).size.toNat = (D.ino j).size.toNat
    by_cases hj : j = i
    · subst hj
      rw [Function.update_self, hsize]
      exact h0.symm
    · rw [Function.update_of_ne hj]
  refine ⟨⟨⟨?_, h.low, h.high, h.fresh⟩, ?_, ?_, ?_⟩, hval, hsizes⟩
  · rw [hval]
    exact h.nums
  · intro j
    rw [hsizes]
    exact h.size j
  · intro j fbn hfbn
    rw [hval, hsizes]
    exact h.used j fbn hfbn
  · intro j
    rw [hval, hsizes]
    exact h.indirect j

/-- The inode that `ialloc` writes. -/
def newInode (type : Half) : Dinode :=
  { type := type, major := 0, minor := 0, nlink := 1, size := 0, addrs := fun _ => 0 }

theorem ialloc_eq (junk : Junk) (type : Half) (fs : Fs) : ialloc junk type fs =
    (fs.freeinode, winode junk fs.freeinode (newInode type)
      ({ fs with freeinode := fs.freeinode + 1 }.note (.ialloc fs.freeinode))) := by
  simp [ialloc, newInode]

theorem ialloc_spec (junk : Junk) (type : Half) (h : fs.Inv) (hi : fs.freeinode.toNat = i.val)
    {inum : Word} (heq : ialloc junk type fs = (inum, fs')) :
    inum = fs.freeinode ∧ fs'.Inv ∧ fs'.freeinode.toNat = fs.freeinode.toNat + 1 ∧
      fs'.freeblock = fs.freeblock ∧
      fs'.disk = { fs.disk with ino := Function.update fs.disk.ino i (newInode type) } ∧
      fs'.log = .winode (iblock inum fs.sb) inum (newInode type) :: .wsect (iblock inum fs.sb) ::
        .ialloc inum :: fs.log ∧
      ∀ b, b ≠ inodeBlock i → fs'.image.blk b = fs.image.blk b := by
  have hlt := i.lt
  have hok : ({ fs with freeinode := fs.freeinode + 1 }.note (.ialloc fs.freeinode)).Ok :=
    ⟨h.ok.sb, h.ok.size⟩
  obtain ⟨hdisk, hframe, hlog⟩ := winode_spec junk hok hi (newInode type)
  obtain ⟨rfl, rfl⟩ := Prod.mk.inj (heq.symm.trans (ialloc_eq junk type fs))
  have hnext : (fs.freeinode + 1).toNat = fs.freeinode.toNat + 1 := by
    have h1 : (1 : Word).toNat = 1 := rfl
    rw [BitVec.toNat_add, h1]
    omega
  have hfree := hframe.freeinode
  have hcount : (winode junk fs.freeinode (newInode type)
      ({ fs with freeinode := fs.freeinode + 1 }.note (.ialloc fs.freeinode))).freeinode.toNat =
      fs.freeinode.toNat + 1 := by rw [hfree]; exact hnext
  have hdisk' : (winode junk fs.freeinode (newInode type)
      ({ fs with freeinode := fs.freeinode + 1 }.note (.ialloc fs.freeinode))).disk =
      { fs.disk with ino := Function.update fs.disk.ino i (newInode type) } := hdisk
  obtain ⟨hinv, -, hsizes⟩ := h.disk.newIno (h.unused i hi.le) (d := newInode type) rfl fun _ => rfl
  refine ⟨rfl, ⟨hframe.ok, hdisk' ▸ hinv, ?_, ?_, fun j hj => ?_⟩, hcount, ?_, hdisk', hlog,
    fun b hb => hframe.blk b fun sec hsec heq => hb (heq.symm.trans hsec)⟩
  · rw [hcount]
    omega
  · rw [hcount, hi]
    exact i.isLt
  · rw [hcount] at hj
    rw [hdisk', hsizes]
    exact h.unused j (by omega)
  · obtain ⟨d, hd, hfreeblock⟩ := (Fs.Goes.winode ({ fs with
      freeinode := fs.freeinode + 1 }.note (.ialloc fs.freeinode)) junk fs.freeinode
      (newInode type)).freeblock
    obtain rfl : d = 0 := by omega
    rw [hfreeblock]
    exact BitVec.add_zero _

/-! ## The formatted image -/

theorem disk_free (fs : Fs) : fs.disk.free = fs.freeblock := rfl

theorem disk_blk (fs : Fs) (b : Nat) :
    fs.disk.blk b = if b < metaNum then fun _ => 0 else fs.image.blk b := rfl

theorem disk_ino (fs : Fs) (i : Ino) :
    fs.disk.ino i = readDinode (fs.image.blk (inodeBlock i)) (64 * (i.val % ipb)) := rfl

theorem clearLoop_spec (n : Nat) (hn : n ≤ fsSize) (fs : Fs) (hdata : fs.image.data = fun _ => 0)
    (hsize : fs.image.size = 0) : (clearLoop n fs).image.data = (fun _ => 0) ∧
      (clearLoop n fs).image.size = n * bSize := by
  induction n with
  | zero => exact ⟨hdata, by rw [Nat.zero_mul]; exact hsize⟩
  | succ n ih =>
    obtain ⟨hdata', hsize'⟩ := ih (by omega)
    have hsec : (BitVec.ofNat 32 n).toNat = n := by
      unfold fsSize at hn
      rw [BitVec.toNat_ofNat]
      omega
    have hoff := sector_toNat (show (BitVec.ofNat 32 n).toNat < fsSize by omega)
    constructor
    · funext a
      simp only [clearLoop, wsect, Fs.note, hdata']
      exact ite_self 0
    · simp only [clearLoop, wsect, Fs.note, hsize', hoff, hsec]
      unfold bSize
      omega

theorem clearLoop_vars (n : Nat) (fs : Fs) : (clearLoop n fs).sb = fs.sb ∧
    (clearLoop n fs).freeinode = fs.freeinode ∧ (clearLoop n fs).freeblock = fs.freeblock := by
  induction n with
  | zero => exact ⟨rfl, rfl, rfl⟩
  | succ n ih => exact ih

theorem clearLoop_log (n : Nat) (fs : Fs) (hlog : ∀ e ∈ fs.log, ∃ sec, e = .wsect sec) :
    ∀ e ∈ (clearLoop n fs).log, ∃ sec, e = .wsect sec := by
  induction n with
  | zero => exact hlog
  | succ n ih =>
    intro e he
    rcases List.mem_cons.mp he with rfl | he
    · exact ⟨_, rfl⟩
    · exact ih e he

/-- The last write of the format, over an image of zeros. -/
theorem format_eq : ∃ fs, format = wsect 1 (fun i => if i < 28 then superblock.byte i else 0) fs ∧
    fs.image.data = (fun _ => 0) ∧ fs.image.size = fsSize * bSize ∧ fs.sb = superblock ∧
    fs.freeinode = 1 ∧ fs.freeblock = BitVec.ofNat 32 metaNum ∧
    ∀ e ∈ fs.log, ∃ sec, e = .wsect sec := by
  refine ⟨_, rfl, ?_⟩
  generalize hstart : Fs.mk ⟨0, fun _ => 0⟩ superblock 1 (BitVec.ofNat 32 metaNum) [] = start
  obtain ⟨hdata, hsize⟩ := clearLoop_spec fsSize le_rfl start (by rw [← hstart]) (by rw [← hstart])
  obtain ⟨hsb, hino, hfree⟩ := clearLoop_vars fsSize start
  rw [hsb, hino, hfree]
  exact ⟨hdata, hsize, by rw [← hstart], by rw [← hstart], by rw [← hstart],
    clearLoop_log fsSize start (by simp [← hstart])⟩

theorem format_sb : format.sb = superblock := by
  obtain ⟨fs, heq, -, -, hsb, -⟩ := format_eq
  rw [heq]
  exact hsb

theorem format_freeinode : format.freeinode = 1 := by
  obtain ⟨fs, heq, -, -, -, hino, -⟩ := format_eq
  rw [heq]
  exact hino

theorem format_freeblock : format.freeblock = BitVec.ofNat 32 metaNum := by
  obtain ⟨fs, heq, -, -, -, -, hfree, -⟩ := format_eq
  rw [heq]
  exact hfree

theorem format_log : ∀ e ∈ format.log, ∃ sec, e = .wsect sec := by
  obtain ⟨fs, heq, -, -, -, -, -, hlog⟩ := format_eq
  rw [heq]
  intro e he
  rcases List.mem_cons.mp he with rfl | he
  · exact ⟨_, rfl⟩
  · exact hlog e he

theorem format_size : format.image.size = fsSize * bSize := by
  obtain ⟨fs, heq, -, hsize, -⟩ := format_eq
  rw [heq, wsect_size (by decide) _ hsize]

/-- The superblock is in block 1. -/
theorem format_blk : format.image.blk = Function.update (fun _ _ => 0) 1
    (fun i => if i < 28 then superblock.byte i else 0) := by
  obtain ⟨fs, heq, hdata, -⟩ := format_eq
  have hblk : fs.image.blk = fun _ _ => 0 := by
    funext b o
    unfold Image.blk clip
    rw [hdata]
    exact ite_self 0
  have hclip : clip (fun i => if i < 28 then superblock.byte i else 0) =
      fun i => if i < 28 then superblock.byte i else 0 := by
    funext o
    by_cases ho : o < bSize
    · rw [clip_lt ho]
    · have ho' : ¬o < 28 := by
        unfold bSize at ho
        omega
      rw [clip, if_neg ho, if_neg ho']
  rw [heq, wsect_blk (by decide), hblk, hclip]
  rfl

theorem inodeBlock_ne_one (i : Ino) : inodeBlock i ≠ 1 := by
  unfold inodeBlock logSize ipb
  omega

/-- The bytes of the superblock, read back. -/
theorem readSuperblock_byte (sb : Superblock) {buf : Buf} (h : ∀ k < 28, buf k = sb.byte k) :
    readSuperblock buf = sb := by
  have h32 : ∀ k, k + 4 ≤ 28 →
      load32 buf k = word32 (sb.byte k) (sb.byte (k + 1)) (sb.byte (k + 2)) (sb.byte (k + 3)) := by
    intro k hk
    rw [load32, h k (by omega), h (k + 1) (by omega), h (k + 2) (by omega), h (k + 3) (by omega)]
  unfold readSuperblock
  congr 1
  · exact (h32 0 (by omega)).trans (word32_byteOf sb.size)
  · exact (h32 4 (by omega)).trans (word32_byteOf sb.nblocks)
  · exact (h32 8 (by omega)).trans (word32_byteOf sb.ninodes)
  · exact (h32 12 (by omega)).trans (word32_byteOf sb.nlog)
  · exact (h32 16 (by omega)).trans (word32_byteOf sb.logstart)
  · exact (h32 20 (by omega)).trans (word32_byteOf sb.inodestart)
  · exact (h32 24 (by omega)).trans (word32_byteOf sb.bmapstart)

theorem format_super : readSuperblock (format.image.blk 1) = superblock := by
  rw [format_blk, Function.update_self]
  exact readSuperblock_byte superblock fun k hk => if_pos hk

theorem format_ino (i : Ino) : format.disk.ino i = readDinode (fun _ => 0) (64 * (i.val % ipb)) := by
  rw [disk_ino, format_blk, Function.update_of_ne (inodeBlock_ne_one i)]

theorem format_addrs (i : Ino) (k : Fin 13) : (format.disk.ino i).addrs k = 0 := by
  rw [format_ino]
  exact word32_zero

theorem format_disk_size (i : Ino) : format.disk.size i = 0 := by
  have hsize : (format.disk.ino i).size = 0 := by
    rw [format_ino]
    exact word32_zero
  unfold Disk.size
  rw [hsize]
  rfl

theorem format_free : format.disk.free.toNat = metaNum := by
  rw [disk_free, format_freeblock]
  decide

theorem format_data (b : Nat) (hb : metaNum ≤ b) : format.disk.blk b = fun _ => 0 := by
  rw [metaNum_eq] at hb
  rw [disk_blk, format_blk, Function.update_of_ne (by omega), ite_self]

/-- A disk with empty files only. -/
theorem Disk.empty_inv (haddrs : ∀ i k, (D.ino i).addrs k = 0) (hsize : ∀ i, D.size i = 0)
    (hfree : D.free.toNat = metaNum) (hblk : ∀ b, metaNum ≤ b → D.blk b = fun _ => 0) : D.Inv := by
  have hval : ∀ r, D.val r = 0 := by
    intro r
    cases r with
    | addr i k =>
      simp only [Disk.val, haddrs]
      rfl
    | entry i j => simp only [Disk.val, haddrs, if_true]
  refine ⟨⟨?_, hfree.ge, ?_, fun b hb _ => hblk b (hfree ▸ hb)⟩, ?_, ?_, ?_⟩
  · rw [hfree]
    exact Numbers.empty hval
  · rw [hfree]
    decide
  · intro i
    rw [hsize]
    exact Nat.zero_le _
  · intro i fbn _
    rw [hval, hsize]
    omega
  · intro i
    rw [hval, hsize]
    omega

theorem format_inv : format.Inv := by
  have hino : format.freeinode.toNat = 1 := by
    rw [format_freeinode]
    rfl
  refine ⟨⟨format_sb, format_size⟩,
    Disk.empty_inv format_addrs format_disk_size format_free format_data, ?_, ?_, ?_⟩
  · omega
  · rw [hino]
    decide
  · intro i _
    exact format_disk_size i

def rootSlot : Ino := ⟨1, by decide⟩

/-! ## Calls -/

theorem Fs.Inv.iappend (h : fs.Inv) (junk : Junk) {inum : Word} (hi : inum.toNat = i.val)
    (hlt : i.val < fs.freeinode.toNat) (xp : List Byte)
    (hmax : fs.disk.size i + xp.length ≤ maxFile * bSize)
    (hroom : fs.freeblock.toNat + blocksOf (fs.disk.size i + xp.length) ≤
      fsSize + blocksOf (fs.disk.size i)) :
    ∃ fs₁ d, iappend junk inum xp fs = .ok (winode junk inum d fs₁) ∧ fs.Frame Event.Data fs₁ ∧
      Appended i xp fs.disk (winode junk inum d fs₁).disk ∧ (winode junk inum d fs₁).Inv := by
  obtain ⟨fs₁, d, hcall, hframe, hdisk⟩ := iappend_spec junk hi h.ok h.disk hmax hroom
  have happ := hdisk ▸ Disk.append_appended h.disk i hmax hroom
  obtain ⟨-, hframe', -⟩ := winode_spec junk hframe.ok hi d
  have hino : (winode junk inum d fs₁).freeinode = fs.freeinode :=
    hframe'.freeinode.trans hframe.freeinode
  refine ⟨fs₁, d, hcall, hframe, happ, hframe'.ok, happ.inv, hino ▸ h.first, hino ▸ h.last, ?_⟩
  intro j hj
  rw [hino] at hj
  rw [happ.size_other (fun hji => by rw [hji] at hj; omega)]
  exact h.unused j hj

/-- The calls that `main` is made of. -/
inductive Call
  | ialloc (type : Half)
  | iappend (inum : Word) (xp : List Byte)

def Call.exec (junk : Junk) : Call → Fs → Except Abort Fs
  | .ialloc type, fs => .ok (Mkfs.ialloc junk type fs).2
  | .iappend inum xp, fs => Mkfs.iappend junk inum xp fs

/-- `iappend` is for an inode that has been handed out. -/
def Call.Allocated : Call → Fs → Prop
  | .ialloc _, _ => True
  | .iappend inum _, fs => 1 ≤ inum.toNat ∧ inum.toNat < fs.freeinode.toNat

/-- A call that returns, whatever the limits. -/
def CallReturns (junk : Junk) (fs : Fs) (c : Call) (fs' : Fs) : Prop :=
  c.Allocated fs ∧ c.exec junk fs = .ok fs'

/-- `ialloc` takes a number of the table, and `iappend` one that has been handed out. -/
def Call.Allowed : Call → Fs → Prop
  | .ialloc _, fs => fs.freeinode.toNat < inodesNum
  | .iappend inum _, fs => 1 ≤ inum.toNat ∧ inum.toNat < fs.freeinode.toNat

/-- A call within the limits: it returns, and the blocks are on the disk. -/
def CallStep (junk : Junk) (fs : Fs) (c : Call) (fs' : Fs) : Prop :=
  c.Allowed fs ∧ c.exec junk fs = .ok fs' ∧ fs'.freeblock.toNat ≤ fsSize

/-- The blocks that a call may write. -/
def Call.MayWrite : Call → Nat → Prop
  | .ialloc _, _ => True
  | .iappend inum _, b => metaNum ≤ b ∨ b = (iblock inum superblock).toNat

/-- The invariant of runs within the limits, and what a step has written. -/
theorem callStep_inv {junk : Junk} {c : Call} (h : fs.Inv) (htable : fs.freeinode.toNat ≤ inodesNum)
    (hstep : CallStep junk fs c fs') :
    fs'.Inv ∧ fs'.freeinode.toNat ≤ inodesNum ∧
      ∃ es, fs'.log = es ++ fs.log ∧ ∀ sec, .wsect sec ∈ es → c.MayWrite sec.toNat := by
  obtain ⟨hallow, hexec, hfree⟩ := hstep
  cases c with
  | ialloc type =>
    have hlt : fs.freeinode.toNat < slotsNum := Nat.lt_trans hallow (by decide)
    have hcall : Mkfs.ialloc junk type fs = (fs.freeinode, fs') :=
      Prod.ext rfl (Except.ok.inj hexec)
    obtain ⟨-, hinv, hino, -, -, hlog, -⟩ := ialloc_spec junk type h (i := ⟨_, hlt⟩) rfl hcall
    refine ⟨hinv, by rw [hino]; exact hallow, [_, _, _], hlog, fun _ _ => trivial⟩
  | iappend inum xp =>
    obtain ⟨-, hlt⟩ := hallow
    have hslot : inum.toNat < slotsNum := by
      have := h.last
      omega
    obtain ⟨hmax, hroom | ⟨-, -, hover⟩⟩ :=
      iappend_returns junk (i := ⟨_, hslot⟩) rfl h.ok h.disk hexec
    · obtain ⟨fs₁, d, hcall, hframe, -, hinv⟩ :=
        h.iappend junk (i := ⟨_, hslot⟩) rfl hlt xp hmax hroom
      obtain rfl := Except.ok.inj (hcall.symm.trans hexec)
      obtain ⟨-, hframe', hlog⟩ := winode_spec junk hframe.ok (i := ⟨_, hslot⟩) rfl d
      obtain ⟨es, hes, hdata⟩ := hframe.log
      refine ⟨hinv, by rw [hframe'.freeinode, hframe.freeinode]; exact htable,
        .winode (iblock inum fs₁.sb) inum d :: .wsect (iblock inum fs₁.sb) :: es,
        by rw [hlog, hes]; rfl, fun sec hsec => ?_⟩
      rcases List.mem_cons.mp hsec with hw | hsec
      · exact absurd hw (by simp)
      rcases List.mem_cons.mp hsec with hw | hsec
      · obtain rfl := Event.wsect.inj hw
        exact Or.inr (by rw [hframe.ok.sb])
      · exact Or.inl (hdata _ hsec).1
    · exact absurd hfree (Nat.not_le.mpr hover)

/-! ## The bitmap -/

theorem one_shift_bit {k j : Nat} (hk : k < 8) (hj : j < 8) :
    BitVec.getLsbD (((1 <<< k : Nat)) : Byte) j = decide (j = k) := by
  interval_cases k <;> interval_cases j <;> decide

theorem ballocLoop_bit (used b : Nat) :
    (ballocLoop used (b / 8)).getLsbD (b % 8) = decide (b < used) := by
  induction used with
  | zero => simp [ballocLoop]
  | succ used ih =>
    rw [ballocLoop]
    by_cases hb : b / 8 = used / 8
    · rw [hb, Function.update_self, BitVec.getLsbD_or, ← hb, ih,
        one_shift_bit (Nat.mod_lt _ (by decide)) (Nat.mod_lt _ (by decide)), ← Bool.decide_or,
        decide_eq_decide]
      omega
    · rw [Function.update_of_ne hb, ih]
      simp only [decide_eq_decide]
      omega

theorem balloc_spec (h : fs.Ok) {used : Nat} (hused : used < bpb) :
    balloc used fs = .ok (wsect superblock.bmapstart (ballocLoop used) fs) ∧
      ∀ b < bpb, ((wsect superblock.bmapstart (ballocLoop used) fs).image.blk
        superblock.bmapstart.toNat (b / 8)).getLsbD (b % 8) = decide (b < used) := by
  constructor
  · rw [← h.sb]
    exact if_pos hused
  · intro b hb
    rw [wsect_blk (by decide), Function.update_self, clip_lt, ballocLoop_bit]
    unfold bpb at hb
    omega

/-! ## The accounting -/

def Ref.inode : Ref → Ino
  | .addr i _ => i
  | .entry i _ => i

/-- The number at a place of the image. -/
def Image.ref (img : Image) : Ref → Nat
  | .addr i k => ((img.ino i).addrs k).toNat
  | .entry i j =>
    if (img.ino i).addrs 12 = 0 then 0
    else (load32 (img.blk ((img.ino i).addrs 12).toNat) (4 * j.val)).toNat

theorem Fs.Inv.ref_eq (h : fs.Inv) : fs.image.ref = fs.disk.val := by
  funext r
  cases r with
  | addr i k => rfl
  | entry i j =>
    have hino : fs.image.ino i = fs.disk.ino i := rfl
    by_cases h0 : (fs.disk.ino i).addrs 12 = 0
    · simp only [Image.ref, Disk.val, hino, if_pos h0]
    · have hrange := h.disk.nums.lt (r := .addr i 12) (mt word_eq_zero.mpr h0)
      have hblk : fs.disk.blk ((fs.disk.ino i).addrs 12).toNat =
          fs.image.blk ((fs.disk.ino i).addrs 12).toNat := if_neg (Nat.not_lt.mpr hrange.1)
      simp only [Image.ref, Disk.val, hino, if_neg h0, hblk]

theorem Fs.Inv.val_unused (h : fs.Inv) {r : Ref} (hr : fs.freeinode.toNat ≤ r.inode.val) :
    fs.disk.val r = 0 := by
  have haddr := h.disk.addrs_eq_zero (h.unused _ hr)
  cases r with
  | addr i k => exact congrArg BitVec.toNat (haddr k)
  | entry i j => exact if_pos (haddr 12)

/-- **Block accounting**: after any calls within the limits, each block handed out is referred to once
and every other place is 0; `iappend` writes data blocks and the block of its inode, and `balloc` marks
the blocks below `freeblock`. -/
theorem block_accounting {junk : Junk} {calls : List Call}
    (hrun : Run (CallStep junk) format calls fs) :
    (∀ b, metaNum ≤ b → b < fs.freeblock.toNat →
      ∃! r : Ref, r.inode.val < inodesNum ∧ fs.image.ref r = b) ∧
    (∀ r : Ref, r.inode.val < inodesNum → fs.image.ref r = 0 ∨
      metaNum ≤ fs.image.ref r ∧ fs.image.ref r < fs.freeblock.toNat) ∧
    (∀ inum xp fs', CallStep junk fs (.iappend inum xp) fs' →
      ∃ es, fs'.log = es ++ fs.log ∧ ∀ sec, .wsect sec ∈ es →
        metaNum ≤ sec.toNat ∨ sec.toNat = (iblock inum superblock).toNat) ∧
    ∃ fs', balloc fs.freeblock.toNat fs = .ok fs' ∧
      ∀ b < bpb, (fs'.image.blk superblock.bmapstart.toNat (b / 8)).getLsbD (b % 8) =
        decide (b < fs.freeblock.toNat) := by
  obtain ⟨hinv, htable⟩ := hrun.state_invariant
    (I := fun fs => fs.Inv ∧ fs.freeinode.toNat ≤ inodesNum)
    ⟨format_inv, by rw [format_freeinode]; decide⟩ fun c t t' hI hstep =>
      ⟨(callStep_inv hI.1 hI.2 hstep).1, (callStep_inv hI.1 hI.2 hstep).2.1⟩
  have hnums : Numbers fs.disk.val metaNum fs.freeblock.toNat := hinv.disk.nums
  rw [hinv.ref_eq]
  refine ⟨fun b hlow hhigh => ?_, fun r _ => hnums.range r, fun inum xp fs' hstep => ?_, ?_⟩
  · obtain ⟨r, hr, huniq⟩ := hnums.existsUnique (by decide) hlow hhigh
    refine ⟨r, ⟨?_, hr⟩, fun r' hr' => huniq r' hr'.2⟩
    by_contra hge
    have hzero := hinv.val_unused (r := r) (by omega)
    rw [metaNum_eq] at hlow
    omega
  · obtain ⟨-, -, es, hes, hwrites⟩ := callStep_inv hinv htable hstep
    exact ⟨es, hes, hwrites⟩
  · have hused : fs.freeblock.toNat < bpb := by
      have hhigh : fs.freeblock.toNat ≤ fsSize := hinv.disk.high
      unfold fsSize at hhigh
      unfold bpb bSize
      omega
    obtain ⟨hcall, hbits⟩ := balloc_spec hinv.ok hused
    exact ⟨_, hcall, hbits⟩

/-- The root directory with one byte in it. -/
theorem block_accounting_root : ∃ fs,
    Run (CallStep fun _ _ _ => 0) format [.ialloc tDir, .iappend 1 [7]] fs ∧
      fs.freeblock.toNat = 60 ∧ ∀ b, metaNum ≤ b → b < fs.freeblock.toNat →
        ∃! r : Ref, r.inode.val < inodesNum ∧ fs.image.ref r = b := by
  have hone : format.freeinode.toNat = 1 := by
    rw [format_freeinode]
    rfl
  have hfree : format.freeblock.toNat = 59 := by
    rw [format_freeblock]
    decide
  generalize hcall : ialloc (fun _ _ _ => 0) tDir format = result
  obtain ⟨inum, fs₁⟩ := result
  obtain ⟨-, hinv₁, hino₁, hfree₁, hdisk₁, -⟩ :=
    ialloc_spec (fun _ _ _ => 0) tDir format_inv (i := rootSlot) hone hcall
  rw [hone] at hino₁
  have hsize : fs₁.disk.size rootSlot = 0 := by
    rw [hdisk₁]
    simp [Disk.size, newInode]
  obtain ⟨fs₂, d, hexec, -, happ, -⟩ := hinv₁.iappend (fun _ _ _ => 0) (i := rootSlot)
    (show (1 : Word).toNat = 1 from rfl) (by rw [hino₁]; decide) [7] (by rw [hsize]; decide)
    (by rw [hfree₁, hfree, hsize]; decide)
  have hfree₂ := happ.free
  rw [happ.size, hsize, disk_free, disk_free, hfree₁, hfree] at hfree₂
  have hcount : (winode (fun _ _ _ => 0) 1 d fs₂).freeblock.toNat = 60 := hfree₂
  have hstep₁ : CallStep (fun _ _ _ => 0) format (.ialloc tDir) fs₁ := by
    refine ⟨?_, ?_, ?_⟩
    · show format.freeinode.toNat < inodesNum
      rw [hone]
      decide
    · show Except.ok (ialloc _ tDir format).2 = _
      rw [hcall]
    · rw [hfree₁, hfree]
      decide
  have hstep₂ : CallStep (fun _ _ _ => 0) fs₁ (.iappend 1 [7]) (winode (fun _ _ _ => 0) 1 d fs₂) := by
    refine ⟨⟨le_rfl, ?_⟩, hexec, by rw [hcount]; decide⟩
    rw [hino₁]
    decide
  have hrun : Run (CallStep fun _ _ _ => 0) format [.ialloc tDir, .iappend 1 [7]]
      (winode (fun _ _ _ => 0) 1 d fs₂) := .cons hstep₁ (.cons hstep₂ .nil)
  exact ⟨_, hrun, hcount, (block_accounting hrun).1⟩

end TuixOS.Mkfs
