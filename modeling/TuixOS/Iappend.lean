import TuixOS.DiskAppend
import TuixOS.MkfsImage

/-!
# `iappend`

A call appends its bytes to one file of the disk, as long as the file and the disk have room for
them; the loop is followed pass by pass (`iappendPass_spec`). When the disk has no room, block
`FS_SIZE` is handed out (`iappendLoop_overflow`).
-/

namespace TuixOS.Mkfs

open Lib

variable {fs fs' : Fs} {T : Ino → Dinode} {i : Ino} {off : Word}

/-! ## Offsets -/

theorem off_div (off : Word) : (off / 512).toNat = off.toNat / bSize := by
  have h512 : (512 : Word).toNat = 512 := rfl
  rw [BitVec.toNat_udiv, h512]
  rfl

theorem off_mod (off : Word) : (off % 512).toNat = off.toNat % bSize := by
  have h512 : (512 : Word).toNat = 512 := rfl
  rw [BitVec.toNat_umod, h512]
  rfl

/-- What is left of the block at `off`. -/
theorem off_left (h : off.toNat < maxFile * bSize) :
    ((off / 512 + 1) * 512 - off).toNat = bSize - off.toNat % bSize := by
  have h512 : (512 : Word).toNat = 512 := rfl
  have h1 : (1 : Word).toNat = 1 := rfl
  simp only [maxFile, directNum, indirectNum, bSize] at h ⊢
  rw [BitVec.toNat_sub, BitVec.toNat_mul, BitVec.toNat_add, BitVec.toNat_udiv, h512, h1]
  omega

theorem off_add (off : Word) {n : Nat} (h : off.toNat + n ≤ maxFile * bSize) :
    off + BitVec.ofNat 32 n = BitVec.ofNat 32 (off.toNat + n) ∧
      (off + BitVec.ofNat 32 n).toNat = off.toNat + n := by
  simp only [maxFile, directNum, indirectNum, bSize] at h
  constructor
  · apply BitVec.eq_of_toNat_eq
    simp only [BitVec.toNat_add, BitVec.toNat_ofNat]
    omega
  · simp only [BitVec.toNat_add, BitVec.toNat_ofNat]
    omega

/-! ## One pass -/

theorem diskFor_size (fs : Fs) (T : Ino → Dinode) (i : Ino) (din : Dinode) (n : Word) :
    (fs.diskFor T i { din with size := n }).size i = n.toNat := by
  simp [Disk.size, Fs.diskOn]

theorem diskFor_setSize (fs : Fs) (T : Ino → Dinode) (i : Ino) (din : Dinode) (b : Nat) (buf : Buf)
    (n : Word) : ((fs.diskFor T i din).write b buf).setSize i n =
      (fs.diskFor T i { din with size := n }).write b buf := by
  unfold Fs.diskFor Fs.diskOn Disk.setSize Disk.write
  simp only [Function.update_self, Function.update_idem]

/-- A pass that finds its blocks is `Disk.put`. -/
theorem iappendPass_spec {D : Disk} {p : List Byte} {din : Dinode} (indirect buf : Buf) (h : fs.Ok)
    (hD : fs.diskFor T i { din with size := off } = D) (hinv : D.Inv) (hp : p ≠ [])
    (hfit : off.toNat % bSize + p.length ≤ bSize) (hmax : off.toNat < maxFile * bSize)
    (hroom : D.free.toNat + blocksOf (off.toNat + p.length) ≤ fsSize + blocksOf off.toNat)
    {x : Word} {din' : Dinode} {indirect' buf' : Buf} {fs₁ fs₂ : Fs}
    (heq : iappendBlock (off / 512).toNat din indirect fs = (x, din', indirect', fs₁))
    (hread : rsect x buf fs₁ = (buf', fs₂)) :
    fs.Frame Event.Data (wsect x (memmove buf' (off % 512).toNat p) fs₂) ∧
      (wsect x (memmove buf' (off % 512).toNat p) fs₂).diskFor T i
        { din' with size := off + BitVec.ofNat 32 p.length } = D.put i p := by
  have hsize : D.size i = off.toNat := by rw [← hD, diskFor_size]
  have hm := List.length_pos_of_ne_nil hp
  rw [← hsize] at hfit hmax hroom
  have hmiss := hinv.missing_eq i hm hfit hmax
  have hroom' : D.free.toNat + D.missing i (D.size i / bSize) ≤ fsSize := by omega
  rw [off_div, ← hsize] at heq
  have hfbn : D.size i / bSize < maxFile := by
    unfold bSize at hmax ⊢
    omega
  obtain ⟨hframe, hdisk, hx⟩ := iappendBlock_spec off indirect hfbn h hD hinv.toSound hroom' heq
  obtain ⟨hext, hgot, -, -⟩ := Disk.ensure_spec hinv.toSound i _ hroom'
  have hrange := hext.sound.nums.lt hgot
  have hhigh := hext.sound.high
  rw [← hx] at hrange
  have hsec : x.toNat < fsSize := by omega
  obtain ⟨buf₁, hread₁, hclip⟩ := rsect_spec hsec buf hframe.ok.size.ge
  obtain ⟨rfl, rfl⟩ := Prod.mk.inj (hread₁.symm.trans hread)
  refine ⟨hframe.trans (hframe.ok.wsect hsec _ ⟨hrange.1, hsec⟩), ?_⟩
  have hadd : off.toNat + p.length ≤ maxFile * bSize := by
    unfold bSize maxFile at *
    omega
  have hblk : fs₁.image.blk x.toNat = (D.ensure i (D.size i / bSize)).blk x.toNat := by
    rw [← hdisk]
    exact (if_neg (by omega)).symm
  rw [diskFor_wsect hrange.1 hsec, off_mod, ← hsize, clip_memmove _ hfit, hclip, hblk]
  unfold Disk.put Disk.pass
  simp only
  rw [← hdisk, diskFor_setSize, hdisk, ← hx, (off_add off hadd).1, hsize]

/-! ## The loop -/

/-- What a pass takes of the bytes left. -/
def take1 (off : Word) (p : List Byte) : Nat := min p.length (bSize - off.toNat % bSize)

theorem take1_pos (off : Word) {p : List Byte} (hp : p ≠ []) : 0 < take1 off p := by
  have := List.length_pos_of_ne_nil hp
  unfold take1 bSize
  omega

theorem take1_le (off : Word) (p : List Byte) : take1 off p ≤ p.length := Nat.min_le_left ..

theorem take1_fits (off : Word) (p : List Byte) : off.toNat % bSize + take1 off p ≤ bSize := by
  unfold take1 bSize
  omega

theorem iappendLoop_pass (fuel : Nat) {p : List Byte} (hp : p ≠ [])
    (hlt : off.toNat < maxFile * bSize) {din din' : Dinode} {indirect indirect' buf buf' : Buf}
    {x : Word} {fs₁ fs₂ : Fs}
    (heq : iappendBlock (off / 512).toNat din indirect fs = (x, din', indirect', fs₁))
    (hread : rsect x buf fs₁ = (buf', fs₂)) :
    iappendLoop (fuel + 1) p off din indirect buf fs =
      iappendLoop fuel (p.drop (take1 off p)) (off + BitVec.ofNat 32 (take1 off p)) din' indirect'
        (memmove buf' (off % 512).toNat (p.take (take1 off p)))
        (wsect x (memmove buf' (off % 512).toNat (p.take (take1 off p))) fs₂) := by
  have hfbn : (off / 512).toNat < maxFile := by
    rw [off_div]
    unfold bSize at hlt ⊢
    omega
  cases p with
  | nil => exact absurd rfl hp
  | cons c cs =>
    rw [iappendLoop]
    · simp only [if_pos hfbn, heq, hread, off_left hlt]
      rfl
    · exact hp

/-- A call that fills no more than one block, whatever the disk. -/
theorem iappend_pass (junk : Junk) {inum : Word} {din : Dinode}
    (hrinode : rinode junk inum fs = (din, fs)) {xp : List Byte} (hne : xp ≠ [])
    (hfit : din.size.toNat % bSize + xp.length ≤ bSize) (hmax : din.size.toNat < maxFile * bSize)
    {x : Word} {din' : Dinode} {indirect buf : Buf} {fs₁ fs₂ : Fs}
    (hblock : iappendBlock (din.size / 512).toNat din (junk .indirect fs.log) fs =
      (x, din', indirect, fs₁))
    (hread : rsect x (junk .iappend fs.log) fs₁ = (buf, fs₂)) :
    iappend junk inum xp fs = .ok (winode junk inum
      { din' with size := din.size + BitVec.ofNat 32 xp.length }
      (wsect x (memmove buf (din.size % 512).toNat xp) fs₂)) := by
  obtain ⟨n, hn⟩ := Nat.exists_eq_succ_of_ne_zero (List.length_pos_of_ne_nil hne).ne'
  have htake : take1 din.size xp = xp.length := by
    unfold take1
    omega
  simp only [iappend, hrinode, xint_eq, hn]
  rw [iappendLoop_pass n hne hmax hblock hread, htake, List.drop_length, List.take_length, hn]
  cases n <;> rfl

/-- A file that is full. -/
theorem iappendLoop_full (fuel : Nat) {p : List Byte} (hp : p ≠ [])
    (hge : maxFile * bSize ≤ off.toNat) (din : Dinode) (indirect buf : Buf) (fs : Fs) :
    iappendLoop (fuel + 1) p off din indirect buf fs = .error .assert := by
  have hfbn : ¬(off / 512).toNat < maxFile := by
    rw [off_div]
    unfold bSize at hge ⊢
    omega
  cases p with
  | nil => exact absurd rfl hp
  | cons c cs =>
    rw [iappendLoop]
    · exact if_neg hfbn
    · exact hp

/-- A pass of the loop that finds its blocks. -/
theorem iappendLoop_step {i : Ino} (fuel : Nat) {p : List Byte} (hp : p ≠ []) {off : Word}
    {din : Dinode} (indirect buf : Buf) (h : fs.Ok)
    (hinv : (fs.diskFor T i { din with size := off }).Inv)
    (hmax : off.toNat + take1 off p ≤ maxFile * bSize)
    (hroom : fs.freeblock.toNat + blocksOf (off.toNat + take1 off p) ≤
      fsSize + blocksOf off.toNat) :
    ∃ off₁ din₁ indirect₁ buf₁ fs₁, iappendLoop (fuel + 1) p off din indirect buf fs =
        iappendLoop fuel (p.drop (take1 off p)) off₁ din₁ indirect₁ buf₁ fs₁ ∧
      off₁.toNat = off.toNat + take1 off p ∧ fs.Frame Event.Data fs₁ ∧
      fs₁.diskFor T i { din₁ with size := off₁ } =
        (fs.diskFor T i { din with size := off }).append i (p.take (take1 off p)) ∧
      (fs₁.diskFor T i { din₁ with size := off₁ }).Inv ∧
      fs₁.freeblock.toNat + blocksOf off.toNat = fs.freeblock.toNat + blocksOf off₁.toNat := by
  have hpos := take1_pos off hp
  have hfits := take1_fits off p
  have hlt : off.toNat < maxFile * bSize := by omega
  have hlen : (p.take (take1 off p)).length = take1 off p := by
    rw [List.length_take, Nat.min_eq_left (take1_le off p)]
  have hne : p.take (take1 off p) ≠ [] := List.ne_nil_of_length_pos (by omega)
  generalize heq : iappendBlock (off / 512).toNat din indirect fs = block
  obtain ⟨x, din₁, indirect₁, fs₁⟩ := block
  generalize hread : rsect x buf fs₁ = read
  obtain ⟨buf₁, fs₂⟩ := read
  obtain ⟨hframe, hput⟩ := iappendPass_spec indirect buf h rfl hinv hne (by rwa [hlen]) hlt
    (by rwa [hlen]) heq hread
  rw [iappendLoop_pass fuel hp hlt heq hread]
  have hoff := (off_add off hmax).2
  have hsize := diskFor_size fs T i din off
  rw [← hsize, ← hlen] at hfits
  rw [← hsize] at hlt
  rw [← hsize, ← hlen] at hroom
  have happ := Disk.put_appended hinv i hne hfits hlt hroom
  rw [Disk.put_eq_append hinv i hne hfits hlt hroom] at hput happ
  rw [← hput] at happ
  rw [hlen] at hput happ
  have hfree := happ.free
  rw [diskFor_size, diskFor_size] at hfree
  exact ⟨_, din₁, indirect₁, _, _, rfl, hoff, hframe, hput, happ.inv, hfree⟩

/-- **The loop of `iappend`** appends all bytes to a file that has room for them. -/
theorem iappendLoop_spec {i : Ino} (fuel : Nat) {p : List Byte} {off : Word} {din : Dinode}
    (indirect buf : Buf) {fs : Fs} (h : fs.Ok)
    (hinv : (fs.diskFor T i { din with size := off }).Inv) (hfuel : p.length ≤ fuel)
    (hmax : off.toNat + p.length ≤ maxFile * bSize)
    (hroom : fs.freeblock.toNat + blocksOf (off.toNat + p.length) ≤ fsSize + blocksOf off.toNat) :
    ∃ off' din' fs', iappendLoop fuel p off din indirect buf fs = .ok (off', din', fs') ∧
      fs.Frame Event.Data fs' ∧ fs'.diskFor T i { din' with size := off' } =
        (fs.diskFor T i { din with size := off }).append i p := by
  induction fuel generalizing p off din indirect buf fs with
  | zero =>
    obtain rfl : p = [] := List.length_eq_zero_iff.mp (by omega)
    exact ⟨off, din, fs, rfl, Fs.Frame.refl _ h, rfl⟩
  | succ fuel ih =>
    by_cases hp : p = []
    · subst hp
      exact ⟨off, din, fs, rfl, Fs.Frame.refl _ h, rfl⟩
    have hpos := take1_pos off hp
    have hle := take1_le off p
    have hmono := blocksOf_mono (Nat.add_le_add_left hle off.toNat)
    obtain ⟨off₁, din₁, indirect₁, buf₁, fs₁, hpass, hoff, hframe, hdisk, hinv₁, hfree⟩ :=
      iappendLoop_step fuel hp indirect buf h hinv (by omega) (by omega)
    have hrest : off₁.toNat + (p.drop (take1 off p)).length = off.toNat + p.length := by
      rw [hoff, List.length_drop]
      omega
    have hfuel₁ : (p.drop (take1 off p)).length ≤ fuel := by
      rw [List.length_drop]
      omega
    obtain ⟨off', din', fs', hloop, hframe', hdisk'⟩ := ih indirect₁ buf₁ hframe.ok hinv₁ hfuel₁
      (by omega) (by rw [hrest]; omega)
    refine ⟨off', din', fs', hpass.trans hloop, hframe.trans hframe', ?_⟩
    rw [hdisk', hdisk, Disk.append_append, List.take_append_drop]

theorem diskFor_ino (fs : Fs) (T : Ino → Dinode) (i : Ino) :
    fs.diskFor T i (T i) = fs.diskOn T := by
  unfold Fs.diskFor
  rw [Function.update_eq_self]

/-- `iappend` on a record that the table `T` has in slot `i`. -/
theorem iappend_on (junk : Junk) {inum : Word} (hlt : (iblock inum superblock).toNat < fsSize)
    (hrecord : fs.record inum = T i) {xp : List Byte} (h : fs.Ok) (hinv : (fs.diskOn T).Inv)
    (hmax : (fs.diskOn T).size i + xp.length ≤ maxFile * bSize)
    (hroom : fs.freeblock.toNat + blocksOf ((fs.diskOn T).size i + xp.length) ≤
      fsSize + blocksOf ((fs.diskOn T).size i)) :
    ∃ fs₁ d, iappend junk inum xp fs = .ok (winode junk inum d fs₁) ∧ fs.Frame Event.Data fs₁ ∧
      fs₁.diskFor T i d = (fs.diskOn T).append i xp := by
  have hdisk : fs.diskFor T i { T i with size := (T i).size } = fs.diskOn T := diskFor_ino fs T i
  have hinv' : (fs.diskFor T i { T i with size := (T i).size }).Inv := hdisk.symm ▸ hinv
  obtain ⟨off', din', fs', hloop, hframe, happ⟩ := iappendLoop_spec xp.length
    (junk .indirect fs.log) (junk .iappend fs.log) h hinv' le_rfl hmax hroom
  rw [hdisk] at happ
  refine ⟨fs', { din' with size := off' }, ?_, hframe, happ⟩
  simp only [iappend, rinode_record junk h.covers hlt, hrecord, xint_eq, hloop]
  rfl

/-- **`iappend`** on a file and a disk with room: data blocks, and last the inode. -/
theorem iappend_spec (junk : Junk) {inum : Word} (hi : inum.toNat = i.val) {xp : List Byte}
    (h : fs.Ok) (hinv : fs.disk.Inv) (hmax : fs.disk.size i + xp.length ≤ maxFile * bSize)
    (hroom : fs.freeblock.toNat + blocksOf (fs.disk.size i + xp.length) ≤
      fsSize + blocksOf (fs.disk.size i)) :
    ∃ fs₁ d, iappend junk inum xp fs = .ok (winode junk inum d fs₁) ∧ fs.Frame Event.Data fs₁ ∧
      (winode junk inum d fs₁).disk = fs.disk.append i xp := by
  obtain ⟨fs', d, hcall, hframe, hdisk⟩ := iappend_on (T := fs.disk.ino) junk (iblock_lt hi)
    (record_ino fs hi) h hinv hmax hroom
  refine ⟨fs', d, hcall, hframe, ?_⟩
  have hino : fs'.diskFor fs.disk.ino i d = fs'.diskWith i d := by
    show fs'.diskFor fs.image.ino i d = _
    rw [← hframe.ino]
    rfl
  rw [(winode_spec junk hframe.ok hi d).1, ← hino]
  exact hdisk

/-! ## What a call does whatever the disk holds -/

/-- The counter of the blocks has gone up by at most `n`. -/
structure Fs.Goes (n : Nat) (fs fs' : Fs) : Prop where
  log : fs.log <:+ fs'.log
  sb : fs'.sb = fs.sb
  freeinode : fs'.freeinode = fs.freeinode
  freeblock : ∃ d ≤ n, fs'.freeblock = fs.freeblock + BitVec.ofNat 32 d

namespace Fs.Goes

variable {n m : Nat} {fs'' : Fs}

theorem refl (fs : Fs) : fs.Goes 0 fs :=
  ⟨List.suffix_refl _, rfl, rfl, 0, le_rfl, (BitVec.add_zero _).symm⟩

theorem trans (h : fs.Goes n fs') (h' : fs'.Goes m fs'') : fs.Goes (n + m) fs'' where
  log := h.log.trans h'.log
  sb := h'.sb.trans h.sb
  freeinode := h'.freeinode.trans h.freeinode
  freeblock := by
    obtain ⟨d, hd, hfree⟩ := h.freeblock
    obtain ⟨d', hd', hfree'⟩ := h'.freeblock
    exact ⟨d + d', by omega, by rw [hfree', hfree, BitVec.add_assoc, BitVec.ofNat_add]⟩

theorem mono (h : fs.Goes n fs') (hn : n ≤ m) : fs.Goes m fs' := by
  obtain ⟨d, hd, hfree⟩ := h.freeblock
  exact ⟨h.log, h.sb, h.freeinode, d, hd.trans hn, hfree⟩

theorem note (fs : Fs) (e : Event) : fs.Goes 0 (fs.note e) :=
  ⟨List.suffix_cons _ _, rfl, rfl, 0, le_rfl, (BitVec.add_zero _).symm⟩

theorem wsect (fs : Fs) (sec : Word) (buf : Buf) : fs.Goes 0 (wsect sec buf fs) :=
  ⟨List.suffix_cons _ _, rfl, rfl, 0, le_rfl, (BitVec.add_zero _).symm⟩

theorem rsect (fs : Fs) (sec : Word) (buf : Buf) : fs.Goes 0 (rsect sec buf fs).2 := by
  unfold Mkfs.rsect
  simp only
  split_ifs
  · exact refl fs
  · exact note fs _

theorem bump (fs : Fs) : fs.Goes 1 fs.bump := ⟨List.suffix_cons _ _, rfl, rfl, 1, le_rfl, rfl⟩

theorem winode (fs : Fs) (junk : Junk) (inum : Word) (d : Dinode) : fs.Goes 0 (winode junk inum d fs) := by
  have hread := rsect fs (iblock inum fs.sb) (junk .winode fs.log)
  exact (hread.trans (wsect _ _ _)).trans (note _ _)

theorem iappendBlock (fs : Fs) (fbn : Nat) (din : Dinode) (indirect : Buf) :
    fs.Goes 2 (iappendBlock fbn din indirect fs).2.2.2 := by
  unfold Mkfs.iappendBlock
  by_cases hdir : fbn < directNum
  · rw [dif_pos hdir]
    simp only
    split_ifs
    · exact (bump fs).mono (by omega)
    · exact (refl fs).mono (by omega)
  · rw [dif_neg hdir]
    generalize hpair : (if xint (din.addrs 12) = 0 then
      (din.setAddr 12 (xint fs.freeblock), fs.bump) else (din, fs)) = pair
    obtain ⟨din₁, fs₁⟩ := pair
    have h₁ : fs.Goes 1 fs₁ := by
      split_ifs at hpair
      · exact (Prod.mk.inj hpair).2 ▸ bump fs
      · exact (Prod.mk.inj hpair).2 ▸ (refl fs).mono (by omega)
    have h₂ := h₁.trans (rsect fs₁ (xint (din₁.addrs 12)) indirect)
    simp only
    split_ifs
    · exact (h₂.trans (bump _)).trans (wsect _ _ _)
    · exact h₂.mono (by omega)

theorem iappendLoop (fuel : Nat) {p : List Byte} {off : Word} {din : Dinode} {indirect buf : Buf}
    {r : Word × Dinode × Fs} (heq : iappendLoop fuel p off din indirect buf fs = .ok r) :
    fs.Goes (2 * (maxFile - off.toNat / bSize)) r.2.2 := by
  induction fuel generalizing p off din indirect buf fs with
  | zero =>
    cases p with
    | nil =>
      obtain rfl := Except.ok.inj heq
      exact (refl fs).mono (by omega)
    | cons c cs => exact absurd heq (by simp [Mkfs.iappendLoop])
  | succ fuel ih =>
    by_cases hp : p = []
    · subst hp
      obtain rfl := Except.ok.inj heq
      exact (refl fs).mono (by omega)
    by_cases hlt : off.toNat < maxFile * bSize
    · have hblock := iappendBlock fs (off / 512).toNat din indirect
      generalize hb : Mkfs.iappendBlock (off / 512).toNat din indirect fs = block at hblock
      obtain ⟨x, din₁, indirect₁, fs₁⟩ := block
      have hread := rsect fs₁ x buf
      generalize hr : Mkfs.rsect x buf fs₁ = read at hread
      obtain ⟨buf₁, fs₂⟩ := read
      rw [iappendLoop_pass fuel hp hlt hb hr] at heq
      have hpass := (hblock.trans hread).trans
        (wsect fs₂ x (memmove buf₁ (off % 512).toNat (p.take (take1 off p))))
      have hfits := take1_fits off p
      have hadd := (off_add off (n := take1 off p) (by
        unfold bSize at hlt hfits ⊢
        omega)).2
      by_cases hlast : take1 off p = p.length
      · rw [hlast, List.drop_length] at heq
        rw [hlast] at hpass
        cases fuel <;>
        · obtain rfl := Except.ok.inj heq
          refine hpass.mono ?_
          unfold bSize at hlt ⊢
          omega
      · -- the block is full, and the next pass is in the next block
        refine (hpass.trans (ih heq)).mono ?_
        rw [hadd]
        unfold take1 bSize at *
        omega
    · rw [iappendLoop_full fuel hp (by omega)] at heq
      exact absurd heq (by simp)

end Fs.Goes

theorem iappendLoop_max (fuel : Nat) {p : List Byte} {off : Word} {din : Dinode} {indirect buf : Buf}
    {fs : Fs} {r : Word × Dinode × Fs} (heq : iappendLoop fuel p off din indirect buf fs = .ok r)
    (hoff : off.toNat ≤ maxFile * bSize) : off.toNat + p.length ≤ maxFile * bSize := by
  induction fuel generalizing p off din indirect buf fs with
  | zero =>
    cases p with
    | nil => exact hoff
    | cons c cs => exact absurd heq (by simp [iappendLoop])
  | succ fuel ih =>
    by_cases hp : p = []
    · subst hp
      exact hoff
    by_cases hlt : off.toNat < maxFile * bSize
    · have hfits := take1_fits off p
      have hadd := (off_add off (n := take1 off p) (by
        unfold bSize at hlt hfits ⊢
        omega)).2
      rw [iappendLoop_pass fuel hp hlt rfl rfl] at heq
      have hrest := ih heq (by
        rw [hadd]
        unfold bSize at hlt hfits ⊢
        omega)
      rw [hadd, List.length_drop] at hrest
      have hle := take1_le off p
      omega
    · rw [iappendLoop_full fuel hp (by omega)] at heq
      exact absurd heq (by simp)

/-! ## A disk without room -/

/-- The first block behind the disk, and a read of it. -/
structure Fs.Overflowed (fs : Fs) : Prop where
  alloc : .alloc (BitVec.ofNat 32 fsSize) ∈ fs.log
  short : .short (BitVec.ofNat 32 fsSize) ∈ fs.log

theorem Fs.Overflowed.mono {n : Nat} (h : fs.Overflowed) (hgo : fs.Goes n fs') : fs'.Overflowed :=
  ⟨hgo.log.subset h.alloc, hgo.log.subset h.short⟩

theorem rsect_short (buf : Buf) (hsize : fs.image.size = fsSize * bSize) :
    .short (BitVec.ofNat 32 fsSize) ∈ (rsect (BitVec.ofNat 32 fsSize) buf fs).2.log := by
  have hsec : (BitVec.ofNat 32 fsSize * 512 : Word).toNat = fsSize * bSize := by decide
  unfold rsect
  simp only [hsec, hsize]
  rw [if_neg (by decide)]
  exact List.mem_cons_self

theorem rsect_freeblock (sec : Word) (buf : Buf) (fs : Fs) :
    (rsect sec buf fs).2.freeblock = fs.freeblock := by
  unfold rsect
  simp only
  split_ifs <;> rfl

theorem bump_toNat (fs : Fs) (h : fs.freeblock.toNat ≤ fsSize + 1) :
    fs.bump.freeblock.toNat = fs.freeblock.toNat + 1 := by
  show (fs.freeblock + 1).toNat = _
  unfold fsSize at h
  bv_omega

theorem eq_fsSize {w : Word} (hw : w.toNat = fsSize) : w = BitVec.ofNat 32 fsSize :=
  BitVec.eq_of_toNat_eq (hw.trans (by decide))

/-- The first block behind the disk has been taken, and read from, or it is `x`. -/
structure Fs.Behind (fs : Fs) (x : Word) : Prop where
  low : fsSize < fs.freeblock.toNat
  high : fs.freeblock.toNat ≤ fsSize + 2
  alloc : .alloc (BitVec.ofNat 32 fsSize) ∈ fs.log
  short : .short (BitVec.ofNat 32 fsSize) ∈ fs.log ∨
    x = BitVec.ofNat 32 fsSize ∧ fs.image.size = fsSize * bSize

theorem bump_alloc (hfull : fs.freeblock.toNat = fsSize) :
    .alloc (BitVec.ofNat 32 fsSize) ∈ fs.bump.log :=
  List.mem_cons.mpr (Or.inl (congrArg Event.alloc (eq_fsSize hfull).symm))

/-- The block for the data is the first behind the disk. -/
theorem bump_behind (hsize : fs.image.size = fsSize * bSize) (hfull : fs.freeblock.toNat = fsSize) :
    fs.bump.Behind fs.freeblock := by
  have hbump := bump_toNat fs (by omega)
  exact ⟨by omega, by omega, bump_alloc hfull, Or.inr ⟨eq_fsSize hfull, hsize⟩⟩

/-- So it is if its number is written to the block of the entries. -/
theorem Fs.Behind.wsect {x sec : Word} (h : fs.Behind x) (hsec : sec.toNat < fsSize) (buf : Buf)
    (hsize : fs.image.size = fsSize * bSize) : (wsect sec buf fs).Behind x := by
  obtain ⟨hlow, hhigh, halloc, hshort⟩ := h
  refine ⟨hlow, hhigh, List.mem_cons_of_mem _ halloc, ?_⟩
  rcases hshort with hshort | ⟨rfl, -⟩
  · exact Or.inl (List.mem_cons_of_mem _ hshort)
  · exact Or.inr ⟨rfl, wsect_size hsec _ hsize⟩

/-- The block for the entries is the first behind the disk, and is read. -/
theorem indirect_behind (hsize : fs.image.size = fsSize * bSize)
    (hfull : fs.freeblock.toNat = fsSize) {buf indirect : Buf} {fs₁ : Fs}
    (hread : rsect (BitVec.ofNat 32 fsSize) buf fs.bump = (indirect, fs₁)) {j : Nat}
    {din din' : Dinode} {x : Word} {indirect' : Buf}
    (heq : (if load32 indirect j = 0 then
        (load32 (store32 indirect j fs₁.freeblock) j, din, store32 indirect j fs₁.freeblock,
          wsect (BitVec.ofNat 32 fsSize) (store32 indirect j fs₁.freeblock) fs₁.bump)
      else (load32 indirect j, din, indirect, fs₁)) = (x, din', indirect', fs')) : fs'.Behind x := by
  have hshort := rsect_short buf (show fs.bump.image.size = _ from hsize)
  have hcount := congrArg BitVec.toNat (rsect_freeblock (BitVec.ofNat 32 fsSize) buf fs.bump)
  have hgoes := Fs.Goes.rsect fs.bump (BitVec.ofNat 32 fsSize) buf
  rw [hread] at hshort hcount hgoes
  simp only at hshort hcount hgoes
  have hbump := bump_toNat fs (by omega)
  have halloc := hgoes.log.subset (bump_alloc hfull)
  split_ifs at heq with hentry
  · obtain ⟨-, -, -, rfl⟩ := by simpa only [Prod.mk.injEq] using heq
    have hcount' : (wsect (BitVec.ofNat 32 fsSize) (store32 indirect j fs₁.freeblock)
        fs₁.bump).freeblock.toNat = fs₁.freeblock.toNat + 1 := bump_toNat fs₁ (by omega)
    exact ⟨by omega, by omega, List.mem_cons_of_mem _ (List.mem_cons_of_mem _ halloc),
      Or.inl (List.mem_cons_of_mem _ (List.mem_cons_of_mem _ hshort))⟩
  · obtain ⟨-, -, -, rfl⟩ := by simpa only [Prod.mk.injEq] using heq
    exact ⟨by omega, by omega, halloc, Or.inl hshort⟩

/-- A pass that finds no block on the disk. -/
theorem iappendBlock_overflow {D : Disk} {din : Dinode} (n : Word) (indirect : Buf) {fbn : Nat}
    (hfbn : fbn < maxFile) (h : fs.Ok) (hD : fs.diskFor T i { din with size := n } = D)
    (hs : D.Sound) (hroom : fsSize < D.free.toNat + D.missing i fbn)
    {x : Word} {din' : Dinode} {indirect' : Buf}
    (heq : iappendBlock fbn din indirect fs = (x, din', indirect', fs')) : fs'.Behind x := by
  subst hD
  have hhigh : fs.freeblock.toNat ≤ fsSize := hs.high
  change fsSize < fs.freeblock.toNat + _ at hroom
  unfold iappendBlock at heq
  by_cases hdir : fbn < directNum
  · rw [dif_pos hdir] at heq
    have href : blockRef i fbn = .addr i ⟨fbn, direct_lt hdir⟩ := dif_pos hdir
    have hval : (fs.diskFor T i { din with size := n }).val (.addr i ⟨fbn, direct_lt hdir⟩) =
        (din.addrs ⟨fbn, direct_lt hdir⟩).toNat := diskFor_addr ..
    simp only [Disk.missing, href, hval, Nat.not_le.mpr hdir, false_and, if_false] at hroom
    split_ifs at hroom with h0
    · simp only [xint_eq, if_pos (word_eq_zero.mpr h0), Prod.mk.injEq, Dinode.setAddr,
        Function.update_self] at heq
      obtain ⟨rfl, -, -, rfl⟩ := heq
      exact bump_behind h.size (by omega)
    · omega
  · rw [dif_neg hdir] at heq
    have hle : directNum ≤ fbn := by omega
    have href : blockRef i fbn = .entry i (Fin.ofNat 128 (fbn - directNum)) := dif_neg hdir
    have hindex := entryIndex_val hfbn
    have hval12 : (fs.diskFor T i { din with size := n }).val (.addr i 12) = (din.addrs 12).toNat :=
      diskFor_addr ..
    simp only [Disk.missing, hle, true_and, href] at hroom
    generalize Fin.ofNat 128 (fbn - directNum) = j at hindex hroom href
    generalize hpair : (if xint (din.addrs 12) = 0 then
      (din.setAddr 12 (xint fs.freeblock), fs.bump) else (din, fs)) = pair at heq
    obtain ⟨din₁, fs₁⟩ := pair
    by_cases hfull : (din.addrs 12).toNat = 0 ∧ fs.freeblock.toNat = fsSize
    · -- the block is that of the entries
      obtain ⟨h0, hfull⟩ := hfull
      rw [xint_eq, if_pos (word_eq_zero.mpr h0), xint_eq] at hpair
      obtain ⟨rfl, rfl⟩ := Prod.mk.inj hpair
      have haddr : (din.setAddr 12 fs.freeblock).addrs 12 = BitVec.ofNat 32 fsSize := by
        rw [← eq_fsSize hfull]
        simp [Dinode.setAddr]
      simp only [xint_eq, haddr] at heq
      generalize hread : rsect (BitVec.ofNat 32 fsSize) indirect fs.bump = read at heq
      obtain ⟨indirect₁, fs₁⟩ := read
      exact indirect_behind h.size hfull hread heq
    · have hmiss : (din.addrs 12).toNat = 0 → fs.freeblock.toNat < fsSize := by omega
      obtain ⟨hframe, hsound, h12, -, hsame, hfree⟩ := indirect_ensured n h rfl hs hle hmiss hpair
      rw [href] at hsame
      simp only [xint_eq, ← hindex] at heq
      generalize hread : rsect (din₁.addrs 12) indirect fs₁ = read at heq
      obtain ⟨indirect₁, fs₂⟩ := read
      obtain ⟨rfl, hrange, -, hentry⟩ := entry_read n indirect j hframe.ok hsound h12 hread
      rw [hsame] at hentry
      rw [hval12] at hroom hfree
      have h0 : load32 indirect₁ (4 * j.val) = 0 := by
        apply word_eq_zero.mpr
        by_contra hne
        rw [hentry, if_neg hne] at hroom
        split_ifs at hroom <;> omega
      rw [hentry, h0] at hroom
      have hlast : fs₂.freeblock.toNat = fsSize := by
        split_ifs at hroom hfree <;> omega
      simp only [if_pos h0, Prod.mk.injEq, load32_store32_index] at heq
      obtain ⟨rfl, -, -, rfl⟩ := heq
      exact (bump_behind hframe.ok.size hlast).wsect hrange.2 _ hframe.ok.size

/-- A pass whose block is behind the disk. -/
theorem iappendLoop_behind {i : Ino} (fuel : Nat) {p : List Byte} (hp : p ≠ []) {off : Word}
    {din : Dinode} {indirect buf : Buf} {fs : Fs} {r : Word × Dinode × Fs} (h : fs.Ok)
    (hinv : (fs.diskFor T i { din with size := off }).Inv) (hlt : off.toNat < maxFile * bSize)
    (hroom : fsSize + blocksOf off.toNat < fs.freeblock.toNat + blocksOf (off.toNat + take1 off p))
    (heq : iappendLoop (fuel + 1) p off din indirect buf fs = .ok r) :
    r.2.2.Overflowed ∧ fsSize < r.2.2.freeblock.toNat := by
  have hpos := take1_pos off hp
  have hfits := take1_fits off p
  generalize hb : iappendBlock (off / 512).toNat din indirect fs = block at *
  obtain ⟨x, din₁, indirect₁, fs₁⟩ := block
  generalize hr : rsect x buf fs₁ = read at *
  obtain ⟨buf₁, fs₂⟩ := read
  rw [iappendLoop_pass fuel hp hlt hb hr] at heq
  have hmiss := hinv.missing_eq i hpos (by rwa [diskFor_size]) (by rwa [diskFor_size])
  rw [diskFor_size] at hmiss
  obtain ⟨hlow, hhi, halloc, hshort⟩ := iappendBlock_overflow off indirect
    (by rw [off_div]; unfold bSize at hlt ⊢; omega) h rfl hinv.toSound
    (by
      rw [off_div]
      change _ < fs.freeblock.toNat + _
      omega) hb
  have hread := Fs.Goes.rsect fs₁ x buf
  rw [hr] at hread
  have hover : fs₂.Overflowed := by
    refine ⟨hread.log.subset halloc, ?_⟩
    rcases hshort with hshort | ⟨rfl, hsize₁⟩
    · exact hread.log.subset hshort
    · have := rsect_short buf hsize₁
      rwa [hr] at this
  have hrest := (Fs.Goes.wsect fs₂ x (memmove buf₁ (off % 512).toNat
    (p.take (take1 off p)))).trans (Fs.Goes.iappendLoop _ heq)
  refine ⟨hover.mono hrest, ?_⟩
  obtain ⟨d, hd, hfree⟩ := (hread.trans hrest).freeblock
  have hd' : d ≤ 280 := by
    simp only [maxFile, directNum, indirectNum, bSize] at hd
    omega
  rw [hfree, BitVec.toNat_add, BitVec.toNat_ofNat]
  unfold fsSize at hlow hhi ⊢
  omega

/-- The loop on a disk that has no room for its bytes. -/
theorem iappendLoop_overflow {i : Ino} (fuel : Nat) {p : List Byte} {off : Word} {din : Dinode}
    {indirect buf : Buf} {fs : Fs} {r : Word × Dinode × Fs} (h : fs.Ok)
    (hinv : (fs.diskFor T i { din with size := off }).Inv)
    (heq : iappendLoop fuel p off din indirect buf fs = .ok r)
    (hroom : fsSize + blocksOf off.toNat < fs.freeblock.toNat + blocksOf (off.toNat + p.length)) :
    r.2.2.Overflowed ∧ fsSize < r.2.2.freeblock.toNat := by
  induction fuel generalizing p off din indirect buf fs with
  | zero =>
    have hhigh : fs.freeblock.toNat ≤ fsSize := hinv.high
    cases p with
    | nil =>
      rw [List.length_nil, Nat.add_zero] at hroom
      omega
    | cons c cs => exact absurd heq (by simp [iappendLoop])
  | succ fuel ih =>
    have hhigh : fs.freeblock.toNat ≤ fsSize := hinv.high
    have hsize := hinv.size i
    rw [diskFor_size] at hsize
    have hmax := iappendLoop_max _ heq hsize
    have hp : p ≠ [] := by
      rintro rfl
      rw [List.length_nil, Nat.add_zero] at hroom
      omega
    have hpos := take1_pos off hp
    have hle := take1_le off p
    have hlt : off.toNat < maxFile * bSize := by omega
    by_cases hpass : fs.freeblock.toNat + blocksOf (off.toNat + take1 off p) ≤
        fsSize + blocksOf off.toNat
    · obtain ⟨off₁, din₁, indirect₁, buf₁, fs₁, hstep, hoff, hframe, -, hinv₁, hfree⟩ :=
        iappendLoop_step fuel hp indirect buf h hinv (by omega) hpass
      have hrest : off₁.toNat + (p.drop (take1 off p)).length = off.toNat + p.length := by
        rw [hoff, List.length_drop]
        omega
      exact ih hframe.ok hinv₁ (hstep.symm.trans heq) (by rw [hrest]; omega)
    · exact iappendLoop_behind fuel hp h hinv hlt (Nat.lt_of_not_le hpass) heq

/-- A call that returns, on a record that the table `T` has in slot `i`. -/
theorem iappend_on_returns {junk : Junk} {inum : Word}
    (hlt : (iblock inum superblock).toNat < fsSize) (hrecord : fs.record inum = T i)
    {xp : List Byte} (h : fs.Ok) (hinv : (fs.diskOn T).Inv)
    (heq : iappend junk inum xp fs = .ok fs') :
    (fs.diskOn T).size i + xp.length ≤ maxFile * bSize ∧
      (fs.freeblock.toNat + blocksOf ((fs.diskOn T).size i + xp.length) ≤
          fsSize + blocksOf ((fs.diskOn T).size i) ∨
        fsSize + blocksOf ((fs.diskOn T).size i) <
            fs.freeblock.toNat + blocksOf ((fs.diskOn T).size i + xp.length) ∧
          fs'.Overflowed ∧ fsSize < fs'.freeblock.toNat) := by
  have hdisk : fs.diskFor T i { T i with size := (T i).size } = fs.diskOn T := diskFor_ino fs T i
  simp only [iappend, rinode_record junk h.covers hlt, hrecord, xint_eq] at heq
  generalize hloop : iappendLoop xp.length xp (T i).size (T i) (junk .indirect fs.log)
    (junk .iappend fs.log) fs = result at heq
  cases result with
  | error e => exact absurd heq (by simp [bind, Except.bind])
  | ok r =>
    obtain rfl := Except.ok.inj heq
    refine ⟨iappendLoop_max _ hloop (hinv.size i), ?_⟩
    by_cases hroom : fs.freeblock.toNat + blocksOf ((fs.diskOn T).size i + xp.length) ≤
        fsSize + blocksOf ((fs.diskOn T).size i)
    · exact Or.inl hroom
    · have hgo := Fs.Goes.winode r.2.2 junk inum { r.2.1 with size := r.1 }
      obtain ⟨hover, hfree⟩ := iappendLoop_overflow (i := i) xp.length h (hdisk.symm ▸ hinv) hloop
        (Nat.lt_of_not_le hroom)
      obtain ⟨d, hd, hfree'⟩ := hgo.freeblock
      obtain rfl : d = 0 := by omega
      refine Or.inr ⟨Nat.lt_of_not_le hroom, hover.mono hgo, ?_⟩
      rw [hfree', BitVec.add_zero]
      exact hfree

/-- **`iappend`** that returns has appended its bytes to a file below `MAX_FILE`, or has gone past
the end of the disk. -/
theorem iappend_returns (junk : Junk) {inum : Word} (hi : inum.toNat = i.val) {xp : List Byte}
    (h : fs.Ok) (hinv : fs.disk.Inv) (heq : iappend junk inum xp fs = .ok fs') :
    fs.disk.size i + xp.length ≤ maxFile * bSize ∧
      (fs.freeblock.toNat + blocksOf (fs.disk.size i + xp.length) ≤
          fsSize + blocksOf (fs.disk.size i) ∨
        fsSize + blocksOf (fs.disk.size i) <
            fs.freeblock.toNat + blocksOf (fs.disk.size i + xp.length) ∧
          fs'.Overflowed ∧ fsSize < fs'.freeblock.toNat) :=
  iappend_on_returns (T := fs.disk.ino) (iblock_lt hi) (record_ino fs hi) h hinv heq

end TuixOS.Mkfs
