import TuixOS.MkfsBlocks

/-!
# A run of `main`

`Built files` is the state behind the loop over the arguments: the directory, the files and the
counters. With room for a file on the disk the loop goes on to `Built (files ++ [f])`
(`Built.addFile`); a loop that returns without room has gone past the end (`Built.addFile_returns`).
-/

namespace TuixOS.Mkfs

open Lib

variable {fs fs' : Fs} {i : Ino} {junk : Junk}

/-! ## The log -/

/-- The record last written for an inode. -/
def lastRecord (inum : Nat) : List Event → Option Dinode
  | [] => none
  | .winode _ inum' ip :: es => if inum'.toNat = inum then some ip else lastRecord inum es
  | _ :: es => lastRecord inum es

/-- What may happen when the next inode is `n` and the disk has room. -/
def Event.Below (n : Nat) : Event → Prop
  | .wsect _ => True
  | .short _ => False
  | .ialloc inum => 1 ≤ inum.toNat ∧ inum.toNat < n
  | .winode bn inum _ => inum.toNat < n ∧ bn = iblock inum superblock
  | .alloc x => x.toNat < fsSize

structure Fs.Logged (fs : Fs) : Prop where
  below : ∀ e ∈ fs.log, e.Below fs.freeinode.toNat
  last : ∀ i : Ino, 1 ≤ i.val → i.val < fs.freeinode.toNat →
    lastRecord i.val fs.log = some (fs.disk.ino i)

theorem Event.Below.mono {n m : Nat} {e : Event} (h : e.Below n) (hnm : n ≤ m) : e.Below m := by
  cases e with
  | ialloc inum => exact ⟨h.1, Nat.lt_of_lt_of_le h.2 hnm⟩
  | winode bn inum ip => exact ⟨Nat.lt_of_lt_of_le h.1 hnm, h.2⟩
  | wsect sec => trivial
  | short sec => exact h
  | alloc x => exact h

theorem Event.Data.below {e : Event} (h : e.Data) (n : Nat) : e.Below n := by
  cases e with
  | wsect sec => trivial
  | alloc x => exact h
  | short sec => exact h
  | ialloc inum => exact h.elim
  | winode bn inum ip => exact h.elim

theorem lastRecord_data {es log : List Event} (h : ∀ e ∈ es, e.Data) (inum : Nat) :
    lastRecord inum (es ++ log) = lastRecord inum log := by
  induction es with
  | nil => rfl
  | cons e es ih =>
    have hrest := ih fun e' he' => h e' (List.mem_cons_of_mem _ he')
    have he := h e List.mem_cons_self
    cases e with
    | winode bn inum' ip => exact he.elim
    | wsect sec => exact hrest
    | short sec => exact hrest
    | ialloc inum' => exact hrest
    | alloc x => exact hrest

theorem Fs.Logged.data (h : fs.Logged) (hframe : fs.Frame Event.Data fs') : fs'.Logged := by
  obtain ⟨es, hes, hdata⟩ := hframe.log
  constructor
  · rw [hes, hframe.freeinode]
    intro e he
    exact (List.mem_append.mp he).elim (fun he => (hdata e he).below _) (h.below e)
  · intro i h1 hlt
    rw [hframe.freeinode] at hlt
    have hino : fs'.disk.ino i = fs.disk.ino i := congrFun hframe.ino i
    rw [hes, lastRecord_data hdata, h.last i h1 hlt, hino]

theorem Fs.Logged.winode (h : fs.Logged) (junk : Junk) (hok : fs.Ok) {inum : Word} (hi : inum.toNat = i.val)
    (hlt : i.val < fs.freeinode.toNat) (d : Dinode) : (winode junk inum d fs).Logged := by
  obtain ⟨hdisk, hframe, hlog⟩ := winode_spec junk hok hi d
  constructor
  · rw [hlog, hframe.freeinode, hok.sb]
    intro e he
    rcases List.mem_cons.mp he with rfl | he
    · exact ⟨hi ▸ hlt, rfl⟩
    rcases List.mem_cons.mp he with rfl | he
    · trivial
    · exact h.below e he
  · intro j h1 hj
    rw [hframe.freeinode] at hj
    rw [hlog, hdisk]
    show (if inum.toNat = j.val then some d else lastRecord j.val fs.log) =
      some (Function.update fs.disk.ino i d j)
    by_cases hji : j = i
    · subst hji
      rw [if_pos hi, Function.update_self]
    · have hne : inum.toNat ≠ j.val := fun he => hji (Fin.ext (he.symm.trans hi))
      rw [if_neg hne, Function.update_of_ne hji]
      exact h.last j h1 hj

theorem Fs.Logged.ialloc {type : Half} (h : fs.Logged) (hinv : fs.Inv)
    (hi : fs.freeinode.toNat = i.val) {inum : Word} (heq : ialloc junk type fs = (inum, fs')) :
    fs'.Logged := by
  obtain ⟨rfl, -, hino, -, hdisk, hlog, -⟩ := ialloc_spec junk type hinv hi heq
  constructor
  · rw [hlog, hino, hinv.ok.sb]
    intro e he
    rcases List.mem_cons.mp he with rfl | he
    · exact ⟨Nat.lt_succ_self _, rfl⟩
    rcases List.mem_cons.mp he with rfl | he
    · trivial
    rcases List.mem_cons.mp he with rfl | he
    · exact ⟨hinv.first, Nat.lt_succ_self _⟩
    · exact (h.below e he).mono (Nat.le_succ _)
  · intro j h1 hj
    rw [hino] at hj
    rw [hlog, hdisk]
    show (if fs.freeinode.toNat = j.val then some (newInode type) else lastRecord j.val fs.log) =
      some (Function.update fs.disk.ino i (newInode type) j)
    by_cases hji : j = i
    · subst hji
      rw [if_pos hi, Function.update_self]
    · have hne : j.val ≠ i.val := fun he => hji (Fin.ext he)
      rw [if_neg (by omega), Function.update_of_ne hji]
      exact h.last j h1 (by omega)

theorem format_logged : format.Logged := by
  constructor
  · intro e he
    obtain ⟨sec, rfl⟩ := format_log e he
    trivial
  · intro i h1 hlt
    rw [format_freeinode] at hlt
    change i.val < 1 at hlt
    omega

/-! ## Appending to a file -/

/-- There is room for `n` more bytes of a file. -/
structure Fs.Room (fs : Fs) (i : Ino) (n : Nat) : Prop where
  file : fs.disk.size i + n ≤ maxFile * bSize
  disk : fs.freeblock.toNat + blocksOf (fs.disk.size i + n) ≤ fsSize + blocksOf (fs.disk.size i)

/-- The disk has no room for them. -/
def Fs.Full (fs : Fs) (i : Ino) (n : Nat) : Prop :=
  fsSize + blocksOf (fs.disk.size i) < fs.freeblock.toNat + blocksOf (fs.disk.size i + n)

/-- The state between two calls. -/
structure Fs.Steady (fs : Fs) : Prop where
  inv : fs.Inv
  logged : fs.Logged
  super : readSuperblock (fs.image.blk 1) = superblock

structure Fs.Appends (i : Ino) (p : List Byte) (fs fs' : Fs) : Prop where
  steady : fs'.Steady
  disk : Appended i p fs.disk fs'.disk
  freeinode : fs'.freeinode = fs.freeinode

theorem Fs.Appends.free {p : List Byte} (h : fs.Appends i p fs') :
    fs'.freeblock.toNat + blocksOf (fs.disk.size i) =
      fs.freeblock.toNat + blocksOf (fs.disk.size i + p.length) := by
  have hfree := h.disk.free
  rwa [h.disk.size] at hfree

theorem Fs.Steady.iappend (h : fs.Steady) (junk : Junk) {inum : Word} (hi : inum.toNat = i.val)
    (hlt : i.val < fs.freeinode.toNat) (xp : List Byte) (hroom : fs.Room i xp.length) :
    ∃ fs', iappend junk inum xp fs = .ok fs' ∧ fs.Appends i xp fs' := by
  obtain ⟨fs₁, d, hcall, hframe, happ, hinv⟩ := h.inv.iappend junk hi hlt xp hroom.file hroom.disk
  obtain ⟨-, hframe', -⟩ := winode_spec junk hframe.ok hi d
  refine ⟨_, hcall, ⟨hinv, ?_, ?_⟩, happ, hframe'.freeinode.trans hframe.freeinode⟩
  · exact (h.logged.data hframe).winode junk hframe.ok hi (hframe.freeinode ▸ hlt) d
  · rw [hframe'.blk 1 fun sec hsec heq => ?_, hframe.blk 1 fun sec hsec heq => ?_, h.super]
    · have hlow := hsec.1
      rw [heq, metaNum_eq] at hlow
      omega
    · exact inodeBlock_ne_one i (hsec.symm.trans heq)

theorem Fs.Steady.iappend_cases (h : fs.Steady) {inum : Word} (hi : inum.toNat = i.val)
    (hlt : i.val < fs.freeinode.toNat) {xp : List Byte}
    (heq : Mkfs.iappend junk inum xp fs = .ok fs') :
    fs.Room i xp.length ∧ fs.Appends i xp fs' ∨ fs.Full i xp.length ∧ fs'.Overflowed := by
  obtain ⟨hmax, hroom | ⟨hfull, hover, -⟩⟩ := iappend_returns junk hi h.inv.ok h.inv.disk heq
  · obtain ⟨fs'', hcall, happ⟩ := h.iappend junk hi hlt xp ⟨hmax, hroom⟩
    obtain rfl := Except.ok.inj (hcall.symm.trans heq)
    exact Or.inl ⟨⟨hmax, hroom⟩, happ⟩
  · exact Or.inr ⟨hfull, hover⟩

theorem iappend_goes {inum : Word} {xp : List Byte} (heq : iappend junk inum xp fs = .ok fs') :
    fs.Goes (2 * maxFile) fs' := by
  have hread := Fs.Goes.rsect fs (iblock inum fs.sb) (junk .rinode fs.log)
  simp only [iappend, rinode, bind, Except.bind] at heq
  split at heq
  · exact absurd heq (by simp)
  · rename_i r hloop
    obtain rfl := Except.ok.inj heq
    refine ((hread.trans (Fs.Goes.iappendLoop _ hloop)).trans (Fs.Goes.winode _ junk inum _)).mono ?_
    rw [Nat.zero_add, Nat.add_zero]
    exact Nat.mul_le_mul_left _ (Nat.sub_le _ _)

/-- The pieces of a file, one call each. -/
theorem Fs.Steady.chunks (h : fs.Steady) (junk : Junk) {inum : Word} (hi : inum.toNat = i.val)
    (hlt : i.val < fs.freeinode.toNat) (chunks : List (List Byte))
    (hroom : fs.Room i chunks.flatten.length) :
    ∃ fs', chunks.foldlM (fun fs c => Mkfs.iappend junk inum c fs) fs = .ok fs' ∧
      fs.Appends i chunks.flatten fs' := by
  induction chunks generalizing fs with
  | nil => exact ⟨fs, rfl, h, Appended.refl h.inv.disk i, rfl⟩
  | cons c cs ih =>
    obtain ⟨hfile, hdisk⟩ := hroom
    rw [List.flatten_cons, List.length_append] at hfile hdisk
    have hmono := blocksOf_mono (n := fs.disk.size i + c.length)
      (m := fs.disk.size i + (c.length + cs.flatten.length)) (by omega)
    obtain ⟨fs₁, hcall, happ⟩ := h.iappend junk hi hlt c ⟨by omega, by omega⟩
    have hfree := happ.free
    have hsize := happ.disk.size
    obtain ⟨fs', hrest, happ'⟩ := ih happ.steady (happ.freeinode ▸ hlt)
      ⟨by omega, by rw [hsize, Nat.add_assoc]; omega⟩
    refine ⟨fs', ?_, happ'.steady, happ.disk.trans happ'.disk,
      happ'.freeinode.trans happ.freeinode⟩
    rw [List.foldlM_cons, hcall]
    exact hrest

theorem foldlM_cons_ok {β : Type} {f : Fs → β → Except Abort Fs} {b : β} {bs : List β}
    (heq : (b :: bs).foldlM f fs = .ok fs') : ∃ fs₁, f fs b = .ok fs₁ ∧ bs.foldlM f fs₁ = .ok fs' := by
  rw [List.foldlM_cons] at heq
  cases hb : f fs b with
  | error e =>
    rw [hb] at heq
    exact absurd heq (by simp [bind, Except.bind])
  | ok fs₁ =>
    rw [hb] at heq
    exact ⟨fs₁, rfl, heq⟩

/-- The log has grown, and no inode has been handed out. -/
structure Fs.Kept (fs fs' : Fs) : Prop where
  log : fs.log <:+ fs'.log
  freeinode : fs'.freeinode = fs.freeinode

theorem iappends_kept {inum : Word} {chunks : List (List Byte)}
    (heq : chunks.foldlM (fun fs c => iappend junk inum c fs) fs = .ok fs') : fs.Kept fs' := by
  induction chunks generalizing fs with
  | nil =>
    obtain rfl := Except.ok.inj heq
    exact ⟨List.suffix_refl _, rfl⟩
  | cons c cs ih =>
    obtain ⟨fs₁, hcall, hrest⟩ := foldlM_cons_ok heq
    have hgo := iappend_goes hcall
    have hkept := ih hrest
    exact ⟨hgo.log.trans hkept.log, hkept.freeinode.trans hgo.freeinode⟩

theorem Fs.Overflowed.log (h : fs.Overflowed) (hlog : fs.log <:+ fs'.log) : fs'.Overflowed :=
  ⟨hlog.subset h.alloc, hlog.subset h.short⟩

theorem Fs.Steady.chunks_cases (h : fs.Steady) {inum : Word} (hi : inum.toNat = i.val)
    (hlt : i.val < fs.freeinode.toNat) {chunks : List (List Byte)}
    (heq : chunks.foldlM (fun fs c => Mkfs.iappend junk inum c fs) fs = .ok fs') :
    fs.Room i chunks.flatten.length ∨ fs.Full i chunks.flatten.length ∧ fs'.Overflowed := by
  induction chunks generalizing fs with
  | nil => exact Or.inl ⟨h.inv.disk.size i, Nat.add_le_add_right h.inv.disk.high _⟩
  | cons c cs ih =>
    obtain ⟨fs₁, hcall, hrest⟩ := foldlM_cons_ok heq
    rw [List.flatten_cons, List.length_append]
    rcases h.iappend_cases hi hlt hcall with ⟨-, happ⟩ | ⟨hfull, hover⟩
    · have hfree := happ.free
      have hsize := happ.disk.size
      rcases ih happ.steady (happ.freeinode ▸ hlt) hrest with ⟨hfile, hdisk⟩ | ⟨hfull, hover⟩
      · rw [hsize, Nat.add_assoc] at hfile hdisk
        exact Or.inl ⟨hfile, by omega⟩
      · unfold Fs.Full at hfull ⊢
        rw [hsize, Nat.add_assoc] at hfull
        exact Or.inr ⟨by omega, hover⟩
    · have hmono := blocksOf_mono (n := fs.disk.size i + c.length)
        (m := fs.disk.size i + (c.length + cs.flatten.length)) (by omega)
      unfold Fs.Full at hfull ⊢
      exact Or.inr ⟨by omega, hover.log (iappends_kept hrest).log⟩

/-! ## The loop over the arguments -/

def InFile.bytes (f : InFile) : List Byte := f.chunks.flatten

/-- The entries of the root directory. -/
def dirents (files : List InFile) : List Dirent :=
  ⟨1, strncpy [0x2E]⟩ :: ⟨1, strncpy [0x2E, 0x2E]⟩ ::
    files.mapIdx fun k f => ⟨BitVec.ofNat 16 (k + 2), strncpy f.name⟩

/-- The blocks of the image in use: those below the data, and those of the directory and the files. -/
def total (files : List InFile) : Nat :=
  metaNum + blocksOf (16 * (files.length + 2)) + (files.map fun f => blocksOf f.bytes.length).sum

/-- The inode of the file `k` of the arguments. -/
def IsFile (k : Nat) (i : Ino) : Prop := i.val = k + 2

structure Built (files : List InFile) (fs : Fs) : Prop where
  steady : fs.Steady
  next : fs.freeinode.toNat = files.length + 2
  free : fs.freeblock.toNat = total files
  rootType : (fs.disk.ino rootSlot).type = tDir
  root : fs.disk.content rootSlot = (dirents files).flatMap Dirent.bytes
  file : ∀ (k : Nat) (hk : k < files.length) (i : Ino), IsFile k i →
    (fs.disk.ino i).type = tFile ∧ fs.disk.content i = files[k].bytes

theorem strncpy_length (s : List Byte) : (strncpy s).length = dirSize := by
  simp [strncpy, dirSize]

theorem Dirent.bytes_length (inum : Half) (s : List Byte) :
    (Dirent.bytes ⟨inum, strncpy s⟩).length = 16 := by
  simp [Dirent.bytes, strncpy_length, dirSize]

theorem dirents_snoc (files : List InFile) (f : InFile) :
    dirents (files ++ [f]) =
      dirents files ++ [⟨BitVec.ofNat 16 (files.length + 2), strncpy f.name⟩] := by
  simp [dirents, List.mapIdx_append]

theorem dirents_length (files : List InFile) : (dirents files).length = files.length + 2 := by
  simp [dirents]

theorem mem_dirents_length {files : List InFile} {de : Dirent} (h : de ∈ dirents files) :
    de.bytes.length = 16 := by
  simp only [dirents, List.mem_cons, List.mem_mapIdx] at h
  rcases h with rfl | rfl | ⟨k, hk, rfl⟩
  · exact Dirent.bytes_length ..
  · exact Dirent.bytes_length ..
  · exact Dirent.bytes_length ..

theorem flatMap_length {α β : Type} {f : α → List β} {m : Nat} {xs : List α}
    (h : ∀ x ∈ xs, (f x).length = m) : (xs.flatMap f).length = m * xs.length := by
  induction xs with
  | nil => simp
  | cons x xs ih =>
    rw [List.flatMap_cons, List.length_append, h x List.mem_cons_self,
      ih fun y hy => h y (List.mem_cons_of_mem _ hy), List.length_cons, Nat.mul_succ, Nat.add_comm]

theorem Built.root_size {files : List InFile} (h : Built files fs) :
    fs.disk.size rootSlot = 16 * (files.length + 2) := by
  rw [← Disk.content_length, h.root, flatMap_length fun de hde => mem_dirents_length hde,
    dirents_length]

theorem total_snoc (files : List InFile) (f : InFile) :
    total (files ++ [f]) + blocksOf (16 * (files.length + 2)) =
      total files + blocksOf (16 * (files.length + 3)) + blocksOf f.bytes.length := by
  simp only [total, List.length_append, List.length_singleton, List.map_append, List.map_cons,
    List.map_nil, List.sum_append, List.sum_cons, List.sum_nil]
  rw [show files.length + 1 + 2 = files.length + 3 by omega]
  omega

theorem addEntry_eq (junk : Junk) (inum : Word) (name : List Byte) (fs : Fs) :
    addEntry junk 1 inum name fs =
      iappend junk 1 (Dirent.bytes ⟨inum.setWidth 16, strncpy name⟩) fs := by
  simp [addEntry]

theorem Appended.type {p : List Byte} {D D' : Disk} (h : Appended i p D D') (j : Ino) :
    (D'.ino j).type = (D.ino j).type := by
  have hkept := congrArg Dinode.type (h.kept j)
  exact hkept

/-- A new inode leaves every file as it is. -/
theorem Fs.Inv.ialloc_content (h : fs.Inv) (hi : fs.freeinode.toNat = i.val) {type : Half}
    (hdisk : fs'.disk = { fs.disk with ino := Function.update fs.disk.ino i (newInode type) })
    (j : Ino) : fs'.disk.content j = fs.disk.content j := by
  obtain ⟨-, hval, hsize⟩ := h.disk.newIno (h.unused i hi.le) (d := newInode type) rfl fun _ => rfl
  rw [hdisk]
  unfold Disk.content Disk.byte
  rw [hval, hsize]

theorem isFile_ne_root {k : Nat} (h : IsFile k i) : i ≠ rootSlot := by
  intro heq
  have h1 : rootSlot.val = 1 := rfl
  rw [heq, IsFile, h1] at h
  omega

/-- `fs'` has the inode `i` for the file behind `files`. -/
structure NewFile (files : List InFile) (fs : Fs) (i : Ino) (inum : Word) (fs' : Fs) : Prop where
  isFile : IsFile files.length i
  inum : inum = BitVec.ofNat 32 (files.length + 2)
  steady : fs'.Steady
  next : fs'.freeinode.toNat = files.length + 3
  free : fs'.freeblock = fs.freeblock
  content : ∀ j, fs'.disk.content j = fs.disk.content j
  ino : fs'.disk.ino = Function.update fs.disk.ino i (newInode tFile)
  root : fs'.disk.size rootSlot = 16 * (files.length + 2)

theorem Built.newFile {files : List InFile} (h : Built files fs) (hi : IsFile files.length i)
    {inum : Word} (heq : ialloc junk tFile fs = (inum, fs')) : NewFile files fs i inum fs' := by
  have hnext := h.next
  have hfresh : fs.freeinode.toNat = i.val := hnext.trans hi.symm
  have hlogged := h.steady.logged.ialloc h.steady.inv hfresh heq
  obtain ⟨rfl, hinv, hino, hfree, hdisk, -, hblk⟩ := ialloc_spec junk tFile h.steady.inv hfresh heq
  have hsuper := h.steady.super
  rw [← hblk 1 (Ne.symm (inodeBlock_ne_one i))] at hsuper
  have hcontent := h.steady.inv.ialloc_content hfresh hdisk
  refine ⟨hi, ?_, ⟨hinv, hlogged, hsuper⟩, by rw [hino, hnext], hfree, hcontent, by rw [hdisk], ?_⟩
  · rw [← hnext, BitVec.ofNat_toNat]
    simp
  · rw [← Disk.content_length, hcontent, Disk.content_length, h.root_size]

namespace NewFile
variable {files : List InFile} {fs₁ fs₂ : Fs} {inum : Word} {p : List Byte}

theorem inum_toNat (h : NewFile files fs i inum fs₁) : inum.toNat = i.val := by
  have hi : i.val = files.length + 2 := h.isFile
  have hlt := i.isLt
  have hslots : slotsNum = 216 := rfl
  rw [h.inum, BitVec.toNat_ofNat]
  omega

theorem root_lt (h : NewFile files fs i inum fs₁) : rootSlot.val < fs₁.freeinode.toNat := by
  rw [h.next]
  exact Nat.lt_of_lt_of_le (by decide : rootSlot.val < 3) (by omega)

theorem lt (h : NewFile files fs i inum fs₁) (happ : fs₁.Appends rootSlot p fs₂) :
    i.val < fs₂.freeinode.toNat := by
  have hi : i.val = files.length + 2 := h.isFile
  rw [happ.freeinode, h.next]
  omega

/-- Its entry in the root leaves the file empty. -/
theorem empty (h : NewFile files fs i inum fs₁) (happ : fs₁.Appends rootSlot p fs₂) :
    fs₂.disk.size i = 0 := by
  rw [happ.disk.size_other (isFile_ne_root h.isFile)]
  show (fs₁.disk.ino i).size.toNat = 0
  rw [h.ino, Function.update_self]
  rfl

theorem entry_free (h : NewFile files fs i inum fs₁) (hlen : p.length = 16)
    (happ : fs₁.Appends rootSlot p fs₂) :
    fs₂.freeblock.toNat + blocksOf (16 * (files.length + 2)) =
      fs.freeblock.toNat + blocksOf (16 * (files.length + 3)) := by
  have hfree := happ.free
  rwa [h.root, hlen, h.free, show 16 * (files.length + 2) + 16 = 16 * (files.length + 3) by omega] at hfree

end NewFile

/-- The entry and the contents make it a file of the arguments. -/
theorem NewFile.built {files : List InFile} {f : InFile} {inum : Word} {fs₁ fs₂ fs₃ : Fs}
    (hnew : NewFile files fs i inum fs₁) (h : Built files fs)
    (happ : fs₁.Appends rootSlot (Dirent.bytes ⟨inum.setWidth 16, strncpy f.name⟩) fs₂)
    (happ' : fs₂.Appends i f.bytes fs₃) : Built (files ++ [f]) fs₃ := by
  have hne : i ≠ rootSlot := isFile_ne_root hnew.isFile
  have hempty := hnew.empty happ
  refine ⟨happ'.steady, ?_, ?_, ?_, ?_, fun k hk j hj => ?_⟩
  · rw [happ'.freeinode, happ.freeinode, hnew.next, List.length_append, List.length_singleton]
  · have hblocks : blocksOf 0 = 0 := rfl
    have hfree := h.free
    have hfree₂ := hnew.entry_free (Dirent.bytes_length ..) happ
    have hfree₃ := happ'.free
    have hsnoc := total_snoc files f
    rw [hempty, Nat.zero_add] at hfree₃
    omega
  · rw [happ'.disk.type, happ.disk.type, hnew.ino, Function.update_of_ne (Ne.symm hne)]
    exact h.rootType
  · rw [happ'.disk.other _ (Ne.symm hne), happ.disk.content, hnew.content, h.root, dirents_snoc,
      List.flatMap_append, hnew.inum]
    simp
  · by_cases hlast : k = files.length
    · subst hlast
      obtain rfl : j = i := Fin.ext (hj.trans hnew.isFile.symm)
      constructor
      · rw [happ'.disk.type, happ.disk.type, hnew.ino, Function.update_self]
        rfl
      · rw [happ'.disk.content, happ.disk.other _ hne]
        have hnil : fs₁.disk.content j = [] := List.length_eq_zero_iff.mp (by
          rw [Disk.content_length, ← happ.disk.size_other hne, hempty])
        rw [hnil]
        simp
    · have hk' : k < files.length := by
        rw [List.length_append, List.length_singleton] at hk
        omega
      have hji : j ≠ i := by
        rintro rfl
        exact hlast (Nat.add_right_cancel (hj.symm.trans hnew.isFile))
      obtain ⟨htype, hbytes⟩ := h.file k hk' j hj
      constructor
      · rw [happ'.disk.type, happ.disk.type, hnew.ino, Function.update_of_ne hji, htype]
      · rw [happ'.disk.other _ hji, happ.disk.other _ (isFile_ne_root hj), hnew.content, hbytes,
          List.getElem_append_left hk']

/-- **A file** that the disk has room for. -/
theorem Built.addFile {files : List InFile} {f : InFile} (h : Built files fs) (junk : Junk)
    (hcount : files.length + 2 < slotsNum) (hname : 0x2F ∉ f.name)
    (hsize : f.bytes.length ≤ maxFile * bSize) (htotal : total (files ++ [f]) ≤ fsSize) :
    ∃ fs', Mkfs.addFile junk 1 fs f = .ok fs' ∧ Built (files ++ [f]) fs' := by
  have hi : IsFile files.length ⟨files.length + 2, hcount⟩ := rfl
  generalize (⟨files.length + 2, hcount⟩ : Ino) = i at hi
  have hslots : slotsNum = 216 := rfl
  have hsnoc := total_snoc files f
  have hfree := h.free
  generalize hcall : ialloc junk tFile fs = result
  obtain ⟨inum, fs₁⟩ := result
  have hnew := h.newFile hi hcall
  -- the entry
  obtain ⟨fs₂, hentry, happ⟩ := hnew.steady.iappend junk (show (1 : Word).toNat = rootSlot.val from rfl)
    hnew.root_lt (Dirent.bytes ⟨inum.setWidth 16, strncpy f.name⟩)
    (by
      constructor
      · rw [hnew.root, Dirent.bytes_length]
        unfold maxFile directNum indirectNum bSize
        omega
      · rw [hnew.root, Dirent.bytes_length, hnew.free, hfree]
        rw [show 16 * (files.length + 2) + 16 = 16 * (files.length + 3) by omega]
        omega)
  have hfree₂ := hnew.entry_free (Dirent.bytes_length ..) happ
  -- the contents
  obtain ⟨fs₃, hchunks, happ'⟩ := happ.steady.chunks junk hnew.inum_toNat (hnew.lt happ) f.chunks
    (by
      have hblocks : blocksOf 0 = 0 := rfl
      change fs₂.Room i f.bytes.length
      constructor
      · rw [hnew.empty happ]
        omega
      · rw [hnew.empty happ, Nat.zero_add, hblocks]
        omega)
  refine ⟨fs₃, ?_, hnew.built h happ happ'⟩
  simp only [Mkfs.addFile, if_neg hname, hcall, addEntry_eq]
  show (iappend junk 1 _ fs₁ >>= _) = _
  rw [hentry]
  exact hchunks

/-! ## A loop that returns -/

theorem addFile_ok {root : Word} {f : InFile} (heq : addFile junk root fs f = .ok fs') :
    0x2F ∉ f.name ∧ ∃ inum fs₁ fs₂, ialloc junk tFile fs = (inum, fs₁) ∧
      addEntry junk root inum f.name fs₁ = .ok fs₂ ∧
      f.chunks.foldlM (fun fs c => iappend junk inum c fs) fs₂ = .ok fs' := by
  unfold addFile at heq
  by_cases hname : 0x2F ∈ f.name
  · rw [if_pos hname] at heq
    exact absurd heq (by simp [throw, throwThe, MonadExceptOf.throw, bind, Except.bind])
  · rw [if_neg hname] at heq
    refine ⟨hname, ?_⟩
    generalize hcall : ialloc junk tFile fs = result at heq
    obtain ⟨inum, fs₁⟩ := result
    change (addEntry junk root inum f.name fs₁ >>= _) = _ at heq
    cases hentry : addEntry junk root inum f.name fs₁ with
    | error e =>
      rw [hentry] at heq
      exact absurd heq (by simp [bind, Except.bind])
    | ok fs₂ =>
      rw [hentry] at heq
      exact ⟨inum, fs₁, fs₂, rfl, hentry, heq⟩

/-- Whatever the disk holds, a file takes the next inode. -/
theorem addFile_next {root : Word} {f : InFile} (heq : addFile junk root fs f = .ok fs') :
    fs'.freeinode = fs.freeinode + 1 ∧ fs.log <:+ fs'.log ∧ .ialloc fs.freeinode ∈ fs'.log := by
  obtain ⟨-, inum, fs₁, fs₂, hcall, hentry, hchunks⟩ := addFile_ok heq
  obtain ⟨-, rfl⟩ := Prod.mk.inj hcall
  have hwinode := Fs.Goes.winode ({ fs with
    freeinode := fs.freeinode + 1 }.note (.ialloc fs.freeinode)) junk fs.freeinode
    { type := xshort tFile, major := 0, minor := 0, nlink := xshort 1, size := xint 0, addrs := fun _ => 0 }
  have hgo := hwinode.trans (iappend_goes hentry)
  have hkept := iappends_kept hchunks
  have hlog := hgo.log.trans hkept.log
  refine ⟨hkept.freeinode.trans hgo.freeinode, ?_, hlog.subset List.mem_cons_self⟩
  exact (List.suffix_cons _ _).trans hlog

theorem Built.addFile_returns {files : List InFile} {f : InFile} (h : Built files fs)
    (hcount : files.length + 2 < slotsNum) (heq : Mkfs.addFile junk 1 fs f = .ok fs') :
    total (files ++ [f]) ≤ fsSize ∧ Built (files ++ [f]) fs' ∨
      fsSize < total (files ++ [f]) ∧ fs'.Overflowed := by
  obtain ⟨hname, inum, fs₁, fs₂, hcall, hentry, hchunks⟩ := addFile_ok heq
  have hi : IsFile files.length ⟨files.length + 2, hcount⟩ := rfl
  generalize (⟨files.length + 2, hcount⟩ : Ino) = i at hi
  have hnew := h.newFile hi hcall
  have hsnoc := total_snoc files f
  have hfree := h.free
  rw [addEntry_eq] at hentry
  rcases hnew.steady.iappend_cases (show (1 : Word).toNat = rootSlot.val from rfl) hnew.root_lt
    hentry with ⟨-, happ⟩ | ⟨hfull, hover⟩
  · have hfree₂ := hnew.entry_free (Dirent.bytes_length ..) happ
    have hempty := hnew.empty happ
    have hblocks : blocksOf 0 = 0 := rfl
    rcases happ.steady.chunks_cases hnew.inum_toNat (hnew.lt happ)
      hchunks with ⟨hfile, hdisk⟩ | ⟨hfull, hover⟩
    · rw [hempty, Nat.zero_add] at hfile hdisk
      have htotal : total (files ++ [f]) ≤ fsSize := by
        change fs₂.freeblock.toNat + blocksOf f.bytes.length ≤ _ at hdisk
        omega
      obtain ⟨fs'', hcall', hbuilt⟩ := h.addFile junk hcount hname hfile htotal
      obtain rfl := Except.ok.inj (hcall'.symm.trans heq)
      exact Or.inl ⟨htotal, hbuilt⟩
    · unfold Fs.Full at hfull
      rw [hempty, Nat.zero_add] at hfull
      change _ < fs₂.freeblock.toNat + blocksOf f.bytes.length at hfull
      exact Or.inr ⟨by omega, hover⟩
  · unfold Fs.Full at hfull
    rw [hnew.root, Dirent.bytes_length, hnew.free, hfree,
      show 16 * (files.length + 2) + 16 = 16 * (files.length + 3) by omega] at hfull
    exact Or.inr ⟨by omega, hover.log (iappends_kept hchunks).log⟩

theorem total_append_le (files rest : List InFile) : total files ≤ total (files ++ rest) := by
  have hmono := blocksOf_mono (n := 16 * (files.length + 2))
    (m := 16 * ((files ++ rest).length + 2)) (by rw [List.length_append]; omega)
  simp only [total, List.map_append, List.sum_append]
  omega

/-- **The loop** with room for all files. -/
theorem Built.addFiles {files : List InFile} (h : Built files fs) (junk : Junk) (rest : List InFile)
    (hcount : (files ++ rest).length + 2 ≤ slotsNum) (hname : ∀ f ∈ rest, 0x2F ∉ f.name)
    (hsize : ∀ f ∈ rest, f.bytes.length ≤ maxFile * bSize) (htotal : total (files ++ rest) ≤ fsSize) :
    ∃ fs', rest.foldlM (Mkfs.addFile junk 1) fs = .ok fs' ∧ Built (files ++ rest) fs' := by
  induction rest generalizing files fs with
  | nil => exact ⟨fs, rfl, by rwa [List.append_nil]⟩
  | cons f rest ih =>
    rw [List.append_cons] at hcount htotal
    have hle := total_append_le (files ++ [f]) rest
    have hlen : (files ++ [f] ++ rest).length = files.length + 1 + rest.length := by
      rw [List.length_append, List.length_append, List.length_singleton]
    obtain ⟨fs₁, hcall, hbuilt⟩ := h.addFile junk (by omega) (hname f List.mem_cons_self)
      (hsize f List.mem_cons_self) (by omega)
    obtain ⟨fs', hrest, hbuilt'⟩ := ih hbuilt hcount
      (fun g hg => hname g (List.mem_cons_of_mem _ hg))
      (fun g hg => hsize g (List.mem_cons_of_mem _ hg)) htotal
    refine ⟨fs', ?_, by rwa [List.append_cons]⟩
    rw [List.foldlM_cons, hcall]
    exact hrest

theorem addFiles_log {root : Word} {rest : List InFile}
    (heq : rest.foldlM (addFile junk root) fs = .ok fs') : fs.log <:+ fs'.log := by
  induction rest generalizing fs with
  | nil =>
    obtain rfl := Except.ok.inj heq
    exact List.suffix_refl _
  | cons f rest ih =>
    obtain ⟨fs₁, hcall, hrest⟩ := foldlM_cons_ok heq
    exact (addFile_next hcall).2.1.trans (ih hrest)

theorem Built.addFiles_returns {files : List InFile} (h : Built files fs) {rest : List InFile}
    (hcount : (files ++ rest).length + 2 ≤ slotsNum)
    (heq : rest.foldlM (Mkfs.addFile junk 1) fs = .ok fs') :
    total (files ++ rest) ≤ fsSize ∧ Built (files ++ rest) fs' ∨
      fsSize < total (files ++ rest) ∧ fs'.Overflowed := by
  induction rest generalizing files fs with
  | nil =>
    obtain rfl := Except.ok.inj heq
    have hhigh : fs.freeblock.toNat ≤ fsSize := h.steady.inv.disk.high
    rw [h.free] at hhigh
    rw [List.append_nil]
    exact Or.inl ⟨hhigh, h⟩
  | cons f rest ih =>
    obtain ⟨fs₁, hcall, hrest⟩ := foldlM_cons_ok heq
    rw [List.append_cons] at hcount ⊢
    have hlen : (files ++ [f] ++ rest).length = files.length + 1 + rest.length := by
      rw [List.length_append, List.length_append, List.length_singleton]
    rcases h.addFile_returns (by omega) hcall with ⟨-, hbuilt⟩ | ⟨htotal, hover⟩
    · exact ih hbuilt hcount hrest
    · have hle := total_append_le (files ++ [f]) rest
      exact Or.inr ⟨by omega, hover.log (addFiles_log hrest)⟩

/-! ## The start and the end of `main` -/

/-- What follows the loop. -/
def finish (junk : Junk) (fs : Fs) : Except Abort Fs :=
  let (din, fs) := rinode junk 1 fs
  let off := xint din.size
  let off := (off / 512 + 1) * 512
  let fs := winode junk 1 { din with size := xint off } fs
  balloc fs.freeblock.toNat fs

/-- The root directory without an entry. -/
theorem ialloc_root (junk : Junk) : ∃ fs₁, ialloc junk tDir format = (rootIno, fs₁) ∧ fs₁.Steady ∧
    fs₁.freeinode.toNat = 2 ∧ fs₁.freeblock.toNat = 59 ∧ (fs₁.disk.ino rootSlot).type = tDir ∧
    fs₁.disk.content rootSlot = [] := by
  have hinv₀ := format_inv
  have hlogged₀ := format_logged
  have hino₀ := format_freeinode
  have hfree₀ := format_freeblock
  have hsuper₀ := format_super
  generalize format = fs₀ at *
  have hone : fs₀.freeinode.toNat = rootSlot.val := by
    rw [hino₀]
    rfl
  generalize hcall : ialloc junk tDir fs₀ = result
  obtain ⟨inum, fs₁⟩ := result
  have hlogged := hlogged₀.ialloc hinv₀ hone hcall
  obtain ⟨rfl, hinv, hino, hfree, hdisk, -, hblk⟩ := ialloc_spec junk tDir hinv₀ hone hcall
  rw [← hblk 1 (Ne.symm (inodeBlock_ne_one _))] at hsuper₀
  refine ⟨fs₁, by rw [hino₀]; rfl, ⟨hinv, hlogged, hsuper₀⟩, ?_, ?_, ?_, ?_⟩
  · rw [hino, hone]
    rfl
  · rw [hfree, hfree₀]
    decide
  · rw [hdisk]
    simp [newInode]
  · rw [hinv₀.ialloc_content hone hdisk]
    exact List.length_eq_zero_iff.mp (by rw [Disk.content_length, hinv₀.unused _ hone.le])

theorem mkfs_eq (junk : Junk) (files : List InFile) : ∃ fs, Built [] fs ∧
    mkfs junk files = files.foldlM (addFile junk 1) fs >>= finish junk := by
  obtain ⟨fs₁, hroot, hsteady, hino, hfree, htype, hempty⟩ := ialloc_root junk
  have hone : (1 : Word).toNat = rootSlot.val := rfl
  have hval : rootSlot.val = 1 := rfl
  have hsize : fs₁.disk.size rootSlot = 0 := by
    rw [← Disk.content_length, hempty]
    rfl
  -- the entries of the directory itself
  obtain ⟨fs₂, hdot, happ⟩ := hsteady.iappend junk hone (by omega) (Dirent.bytes ⟨1, strncpy [0x2E]⟩)
    ⟨by rw [hsize]; decide, by rw [hsize, hfree]; decide⟩
  have hfree₂ := happ.free
  have hsize₂ := happ.disk.size
  rw [hsize, Dirent.bytes_length] at hsize₂ hfree₂
  rw [hfree] at hfree₂
  have hcount₂ : fs₂.freeblock.toNat = 60 := hfree₂
  obtain ⟨fs₃, hdotdot, happ'⟩ := happ.steady.iappend junk hone (by rw [happ.freeinode]; omega)
    (Dirent.bytes ⟨1, strncpy [0x2E, 0x2E]⟩) ⟨by rw [hsize₂]; decide, by rw [hsize₂, hcount₂]; decide⟩
  have hfree₃ := happ'.free
  rw [hsize₂, Dirent.bytes_length, hcount₂] at hfree₃
  have hcount₃ : fs₃.freeblock.toNat = total [] := Nat.succ.inj hfree₃
  refine ⟨fs₃, ⟨happ'.steady, ?_, hcount₃, ?_, ?_, fun k hk => absurd hk (Nat.not_lt_zero k)⟩, ?_⟩
  · rw [happ'.freeinode, happ.freeinode, hino]
    rfl
  · rw [happ'.disk.type, happ.disk.type, htype]
  · rw [happ'.disk.content, happ.disk.content, hempty]
    rfl
  · have hset : BitVec.setWidth 16 (1 : Word) = 1 := rfl
    unfold mkfs
    rw [hroot]
    show (addEntry junk 1 1 [0x2E] fs₁ >>= fun fs => addEntry junk 1 1 [0x2E, 0x2E] fs >>= fun fs =>
      files.foldlM (addFile junk 1) fs >>= _) = _
    simp only [addEntry_eq, hset, hdot]
    show (iappend junk 1 _ fs₂ >>= _) = _
    rw [hdotdot]
    rfl

/-- The state behind the loop and the final one. -/
structure Finished (fs fs' : Fs) : Prop where
  root : (fs'.image.ino rootSlot) =
    { fs.disk.ino rootSlot with size := ((fs.disk.ino rootSlot).size / 512 + 1) * 512 }
  ino : ∀ i : Ino, i ≠ rootSlot → i.val < inodeBlocksNum * ipb → fs'.image.ino i = fs.disk.ino i
  blk : ∀ b, metaNum ≤ b ∨ b = 1 → fs'.image.blk b = fs.image.blk b
  freeblock : fs'.freeblock = fs.freeblock
  below : ∀ e ∈ fs'.log, e.Below fs.freeinode.toNat
  last : ∀ i : Ino, 1 ≤ i.val → i.val < fs.freeinode.toNat → i.val < inodeBlocksNum * ipb →
    lastRecord i.val fs'.log = some (fs'.image.ino i)

theorem Built.finish {files : List InFile} (h : Built files fs) (junk : Junk) :
    ∃ fs', Mkfs.finish junk fs = .ok fs' ∧ Finished fs fs' := by
  have hok := h.steady.inv.ok
  have hone : (1 : Word).toNat = rootSlot.val := rfl
  have hlt : rootSlot.val < fs.freeinode.toNat := by
    rw [h.next]
    exact Nat.lt_of_lt_of_le (by decide : rootSlot.val < 2) (Nat.le_add_left _ _)
  generalize hd : ({ fs.disk.ino rootSlot with
    size := ((fs.disk.ino rootSlot).size / 512 + 1) * 512 } : Dinode) = d
  obtain ⟨hdisk, hframe, hlog⟩ := winode_spec junk hok hone d
  have hlogged := h.steady.logged.winode junk hok hone hlt d
  have hgo := Fs.Goes.winode fs junk 1 d
  have hfree : (winode junk 1 d fs).freeblock = fs.freeblock := by
    obtain ⟨n, hn, hfree⟩ := hgo.freeblock
    obtain rfl : n = 0 := by omega
    rw [hfree, BitVec.add_zero]
  have hused : (winode junk 1 d fs).freeblock.toNat < bpb := by
    have hhigh : fs.freeblock.toNat ≤ fsSize := h.steady.inv.disk.high
    rw [hfree]
    exact Nat.lt_of_le_of_lt hhigh (by decide)
  obtain ⟨hcall, -⟩ := balloc_spec hframe.ok hused
  have hbmap : superblock.bmapstart.toNat = 58 := by decide
  have hblk := wsect_blk (show superblock.bmapstart.toNat < fsSize by decide)
    (ballocLoop (winode junk 1 d fs).freeblock.toNat) (winode junk 1 d fs)
  have hino : ∀ i : Ino, i.val < inodeBlocksNum * ipb → (wsect superblock.bmapstart
      (ballocLoop (winode junk 1 d fs).freeblock.toNat) (winode junk 1 d fs)).image.ino i =
        Function.update fs.disk.ino rootSlot d i := by
    intro i hi
    have hne : inodeBlock i ≠ superblock.bmapstart.toNat := by
      have h208 : inodeBlocksNum * ipb = 208 := by decide
      rw [hbmap]
      unfold inodeBlock logSize ipb
      omega
    unfold Image.ino
    rw [hblk, Function.update_of_ne hne]
    exact congrArg (fun D : Disk => D.ino i) hdisk
  refine ⟨wsect superblock.bmapstart (ballocLoop (winode junk 1 d fs).freeblock.toNat)
    (winode junk 1 d fs), ?_, ?_, fun i hne hi => ?_, fun b hb => ?_, hfree, fun e he => ?_,
    fun i h1 hlt hi => ?_⟩
  · simp only [Mkfs.finish, rinode_eq junk hok hone, xint_eq, hd]
    exact hcall
  · rw [hino _ (by decide), Function.update_self, hd]
  · rw [hino i hi, Function.update_of_ne hne]
  · have hne : b ≠ superblock.bmapstart.toNat := by
      rw [hbmap]
      rw [metaNum_eq] at hb
      omega
    rw [hblk, Function.update_of_ne hne]
    refine hframe.blk b fun sec hsec heq => ?_
    have hroot : inodeBlock rootSlot = 32 := rfl
    have hsec' : sec.toNat = 32 := hsec.trans hroot
    rw [metaNum_eq] at hb
    omega
  · rcases List.mem_cons.mp he with rfl | he
    · trivial
    · have hbelow := hlogged.below e he
      rwa [hframe.freeinode] at hbelow
  · have hrecord := hlogged.last i h1 (by rwa [hframe.freeinode])
    rw [hino i hi, ← show (winode junk 1 d fs).disk.ino i = Function.update fs.disk.ino rootSlot d i
      from congrArg (fun D : Disk => D.ino i) hdisk]
    exact hrecord

theorem balloc_goes {used : Nat} (heq : balloc used fs = .ok fs') : fs.Goes 0 fs' := by
  unfold balloc at heq
  by_cases hused : used < bSize * 8
  · rw [if_pos hused] at heq
    obtain rfl := Except.ok.inj heq
    exact Fs.Goes.wsect fs _ _
  · rw [if_neg hused] at heq
    exact absurd heq (by simp)

theorem finish_log (heq : finish junk fs = .ok fs') : fs.log <:+ fs'.log := by
  have hread := Fs.Goes.rsect fs (iblock 1 fs.sb) (junk .rinode fs.log)
  exact ((hread.trans (Fs.Goes.winode _ junk 1 _)).trans (balloc_goes heq)).log

/-! ## Whole runs -/

theorem mkfs_ok {files : List InFile} (heq : mkfs junk files = .ok fs) : ∃ fs₀ fs₁, Built [] fs₀ ∧
    files.foldlM (addFile junk 1) fs₀ = .ok fs₁ ∧ finish junk fs₁ = .ok fs := by
  obtain ⟨fs₀, hbuilt, hmkfs⟩ := mkfs_eq junk files
  rw [hmkfs] at heq
  cases hloop : files.foldlM (addFile junk 1) fs₀ with
  | error e =>
    rw [hloop] at heq
    exact absurd heq (by simp [bind, Except.bind])
  | ok fs₁ =>
    rw [hloop] at heq
    exact ⟨fs₀, fs₁, hbuilt, hloop, heq⟩

/-- **`main`** with room for all files. -/
theorem mkfs_room (junk : Junk) (files : List InFile) (hcount : files.length + 2 ≤ slotsNum)
    (hname : ∀ f ∈ files, 0x2F ∉ f.name) (hsize : ∀ f ∈ files, f.bytes.length ≤ maxFile * bSize)
    (htotal : total files ≤ fsSize) :
    ∃ fs₁ fs, mkfs junk files = .ok fs ∧ Built files fs₁ ∧ Finished fs₁ fs := by
  obtain ⟨fs₀, hbuilt, hmkfs⟩ := mkfs_eq junk files
  obtain ⟨fs₁, hloop, hbuilt₁⟩ := hbuilt.addFiles junk files hcount hname hsize htotal
  obtain ⟨fs, hfinish, hfinished⟩ := hbuilt₁.finish junk
  refine ⟨fs₁, fs, ?_, hbuilt₁, hfinished⟩
  rw [hmkfs, hloop]
  exact hfinish

/-- **`main`** that returns. -/
theorem mkfs_returns {files : List InFile} (hcount : files.length + 2 ≤ slotsNum)
    (heq : mkfs junk files = .ok fs) :
    (total files ≤ fsSize ∧ ∃ fs₁, Built files fs₁ ∧ Finished fs₁ fs) ∨
      fsSize < total files ∧ fs.Overflowed := by
  obtain ⟨fs₀, fs₁, hbuilt, hloop, hfinish⟩ := mkfs_ok heq
  rcases hbuilt.addFiles_returns hcount hloop with ⟨htotal, hbuilt₁⟩ | ⟨htotal, hover⟩
  · obtain ⟨fs', hfinish', hfinished⟩ := hbuilt₁.finish junk
    obtain rfl := Except.ok.inj (hfinish'.symm.trans hfinish)
    exact Or.inl ⟨htotal, fs₁, hbuilt₁, hfinished⟩
  · exact Or.inr ⟨htotal, hover.log (finish_log hfinish)⟩

end TuixOS.Mkfs
