import TuixOS.MkfsRun
import TuixOS.Lib.Simulation

/-!
# Failing calls in `tools/mkfs.c`

`wsect` and `rsect` report a failing or short call and return, and a loop over `read` ends with an error as
with the end of the file: `main` goes on and returns 0. The programs here are those of `Mkfs` over calls
that may fail, in any pattern, and they record what each transfer found and moved. A transfer is harmless when
what it left out made no difference. A run of harmless transfers is one of the program without faults
(`mkfs_simulates`).
-/

namespace TuixOS.Mkfs

open Lib

/-! ## Transfers -/

/-- What a call on the image gives: all it was asked for, an error, or fewer bytes. -/
inductive Outcome
  | full
  | fail
  | short (n : Nat)
  deriving DecidableEq

/-- The bytes that a `read` or `write` of a block moves. -/
def Outcome.bytes : Outcome → Nat
  | .full => bSize
  | .fail => 0
  | .short n => min n bSize

inductive Access.Kind
  /-- A `wsect` that clears the image at the start. -/
  | clear
  | write
  | read
  deriving DecidableEq

/-- A transfer between a block and a buffer, with the image and the buffer before it. -/
structure Access where
  kind : Access.Kind
  sec : Word
  buf : Buf
  image : Image
  moved : Nat

def Access.off (a : Access) : Nat := (a.sec * 512).toNat

/-- What the transfer left out makes no difference: bytes that were there already, or, before there is
anything but zeros, a block that is not the last. -/
def Access.Harmless (a : Access) : Prop :=
  match a.kind with
  | .clear => a.moved = bSize ∨ a.sec.toNat + 1 < fsSize
  | .write => ∀ k, a.moved ≤ k → k < bSize →
      a.off + bSize ≤ a.image.size ∧ a.image.data (a.off + k) = a.buf k
  | .read => ∀ k, a.moved ≤ k → k < bSize → a.off + k < a.image.size →
      a.image.data (a.off + k) = a.buf k

/-- The program's variables and the image, and what its calls on the image have done; `faults` has the
outcomes of the calls, in order. -/
structure Run (faults : Nat → Outcome) where
  fs : Fs
  calls : Nat
  /-- The latest first. -/
  trace : List Access
  traced : ∀ a ∈ trace, a.moved = bSize ∨ ∃ i, faults i ≠ .full

namespace Run
variable {faults : Nat → Outcome}

/-- The bytes moved by `lseek` and then `read` or `write`. -/
def moved (d : Run faults) : Nat :=
  if faults d.calls = .full then (faults (d.calls + 1)).bytes else 0

theorem moved_full (d : Run faults) : d.moved = bSize ∨ ∃ i, faults i ≠ .full := by
  by_cases hseek : faults d.calls = .full
  · by_cases hmove : faults (d.calls + 1) = .full
    · refine .inl ?_
      rw [moved, if_pos hseek, hmove]
      rfl
    · exact .inr ⟨_, hmove⟩
  · exact .inr ⟨_, hseek⟩

theorem moved_le (d : Run faults) : d.moved ≤ bSize := by
  unfold moved
  split_ifs
  · cases faults (d.calls + 1) with
    | full => exact le_rfl
    | fail => exact Nat.zero_le _
    | short n => exact Nat.min_le_right _ _
  · exact Nat.zero_le _

/-- The calls of a transfer are made: two, or `lseek` alone if it fails. -/
def transfer (kind : Access.Kind) (sec : Word) (buf : Buf) (fs : Fs) (d : Run faults) : Run faults where
  fs := fs
  calls := if faults d.calls = .full then d.calls + 2 else d.calls + 1
  trace := ⟨kind, sec, buf, d.fs.image, d.moved⟩ :: d.trace
  traced := by
    intro a ha
    rcases List.mem_cons.mp ha with rfl | ha
    · exact d.moved_full
    · exact d.traced a ha

/-- All transfers have been harmless. -/
def Clean (d : Run faults) : Prop := ∀ a ∈ d.trace, a.Harmless

end Run

/-- The image with the first `n` bytes of a buffer at `off`. -/
def Image.write (img : Image) (off n : Nat) (buf : Buf) : Image where
  size := if n = 0 then img.size else max img.size (off + n)
  data a := if off ≤ a ∧ a < off + n then buf (a - off) else img.data a

/-- The buffer with up to `n` bytes of the image from `off` on over it. -/
def Image.readOver (img : Image) (off n : Nat) (buf : Buf) : Buf := fun i =>
  if i < n ∧ off + i < img.size then img.data (off + i) else buf i

/-- A program over failing calls. -/
abbrev Io (faults : Nat → Outcome) (α : Type) := Prog (Run faults) Abort α

/-! ## The program over failing calls -/

namespace Faulty
variable {faults : Nat → Outcome}

def getFs : Io faults Fs := .step fun d => (d.fs, d)

/-- A step that makes no call. -/
def onFs {α : Type} (g : Fs → α × Fs) : Io faults α :=
  .step fun d => ((g d.fs).1, { d with fs := (g d.fs).2 })

def wsectAs (kind : Access.Kind) (sec : Word) (buf : Buf) : Io faults Unit := .step fun d =>
  let off := (sec * 512).toNat
  let fs := { d.fs with image := d.fs.image.write off d.moved buf }.note (.wsect sec)
  ((), d.transfer kind sec buf fs)

def wsect (sec : Word) (buf : Buf) : Io faults Unit := wsectAs .write sec buf

def rsect (sec : Word) (buf : Buf) : Io faults Buf := .step fun d =>
  let off := (sec * 512).toNat
  (d.fs.image.readOver off d.moved buf, d.transfer .read sec buf
    (if off + bSize ≤ d.fs.image.size then d.fs else d.fs.note (.short sec)))

/-- `freeblock++` -/
def allocBlock : Io faults Word := onFs fun fs => (fs.freeblock, fs.bump)

section Program
variable (junk : Junk)

def rinode (inum : Word) : Io faults Dinode := do
  let fs ← getFs
  let bn := iblock inum fs.sb
  let buf ← rsect bn (junk .rinode fs.log)
  return readDinode buf (64 * (inum % 8).toNat)

def winode (inum : Word) (ip : Dinode) : Io faults Unit := do
  let fs ← getFs
  let bn := iblock inum fs.sb
  let buf ← rsect bn (junk .winode fs.log)
  wsect bn (writeDinode buf (64 * (inum % 8).toNat) ip)
  onFs fun fs => ((), fs.note (.winode bn inum ip))

def ialloc (type : Half) : Io faults Word := do
  let inum ← onFs fun fs =>
    (fs.freeinode, { fs with freeinode := fs.freeinode + 1 }.note (.ialloc fs.freeinode))
  let din : Dinode :=
    { type := xshort type, major := 0, minor := 0, nlink := xshort 1, size := xint 0, addrs := fun _ => 0 }
  winode junk inum din
  return inum

def balloc (used : Nat) : Io faults Unit := do
  let fs ← getFs
  if used < bSize * 8 then wsect fs.sb.bmapstart (ballocLoop used) else throw .assert

/-- The part of `iappend` for the indirect block of a file that has none. -/
def indirectBlock (din : Dinode) : Io faults Dinode :=
  if xint (din.addrs 12) = 0 then do
    let b ← allocBlock
    return din.setAddr 12 (xint b)
  else return din

/-- The part of `iappend` for the entry at `j` of the indirect block. -/
def entryBlock (j : Nat) (din : Dinode) (indirect : Buf) : Io faults (Word × Dinode × Buf) :=
  if load32 indirect j = 0 then do
    let b ← allocBlock
    let indirect := store32 indirect j (xint b)
    wsect (xint (din.addrs 12)) indirect
    return (xint (load32 indirect j), din, indirect)
  else return (xint (load32 indirect j), din, indirect)

def iappendBlock (fbn : Nat) (din : Dinode) (indirect : Buf) : Io faults (Word × Dinode × Buf) :=
  if h : fbn < directNum then
    let k : Fin 13 := ⟨fbn, direct_lt h⟩
    if xint (din.addrs k) = 0 then do
      let b ← allocBlock
      let din := din.setAddr k (xint b)
      return (xint (din.addrs k), din, indirect)
    else return (xint (din.addrs k), din, indirect)
  else do
    let din ← indirectBlock din
    let indirect ← rsect (xint (din.addrs 12)) indirect
    entryBlock (4 * (fbn - directNum)) din indirect

def iappendLoop : Nat → List Byte → Word → Dinode → Buf → Buf → Io faults (Word × Dinode)
  | _, [], off, din, _, _ => return (off, din)
  | 0, _ :: _, _, _, _, _ => throw .diverge
  | fuel + 1, p, off, din, indirect, buf =>
    let fbn := (off / 512).toNat
    if fbn < maxFile then do
      let (x, din, indirect) ← iappendBlock fbn din indirect
      let n1 := min p.length ((off / 512 + 1) * 512 - off).toNat
      let buf ← rsect x buf
      let buf := memmove buf (off % 512).toNat (p.take n1)
      wsect x buf
      iappendLoop fuel (p.drop n1) (off + BitVec.ofNat 32 n1) din indirect buf
    else throw .assert

def iappend (inum : Word) (xp : List Byte) : Io faults Unit := do
  let din ← rinode junk inum
  let off := xint din.size
  let fs ← getFs
  let (off, din) ← iappendLoop xp.length xp off din (junk .indirect fs.log) (junk .iappend fs.log)
  winode junk inum { din with size := xint off }

def clearLoop : Nat → Io faults Unit
  | 0 => pure ()
  | i + 1 => do
    clearLoop i
    wsectAs .clear (BitVec.ofNat 32 i) fun _ => 0

/-- The variables with the layout, and the new image. -/
def start : Run faults where
  fs :=
    { image := ⟨0, fun _ => 0⟩
      sb := superblock
      freeinode := 1
      freeblock := BitVec.ofNat 32 metaNum
      log := [] }
  calls := 0
  trace := []
  traced _ ha := absurd ha List.not_mem_nil

def format : Io faults Unit := do
  clearLoop fsSize
  wsect 1 fun i => if i < 28 then superblock.byte i else 0

def addEntry (rootIno inum : Word) (name : List Byte) : Io faults Unit :=
  iappend junk rootIno (Dirent.bytes ⟨xshort (inum.setWidth 16), strncpy name⟩)

/-- What the loop over `read` gets of the pieces of a file; `fails` says which calls fail. -/
def readChunks (fails : Nat → Bool) : List (List Byte) → List (List Byte)
  | [] => []
  | c :: cs => if fails 0 then [] else c :: readChunks (fun k => fails (k + 1)) cs

/-- A file of the command line, with the `read` calls that fail. -/
structure Source where
  file : InFile
  fails : Nat → Bool

def addFile (rootIno : Word) (f : Source) : Io faults Unit := do
  if 0x2F ∈ f.file.name then throw .assert
  let inum ← ialloc junk tFile
  addEntry junk rootIno inum f.file.name
  (readChunks f.fails f.file.chunks).forM fun c => iappend junk inum c

/-- The end of `main`. -/
def finish (rootIno : Word) : Io faults Unit := do
  let din ← rinode junk rootIno
  let off := xint din.size
  let off := (off / 512 + 1) * 512
  winode junk rootIno { din with size := xint off }
  let fs ← getFs
  balloc fs.freeblock.toNat

/-- `main` behind the allocation of the root. -/
def fillRoot (rootIno : Word) (files : List Source) : Io faults Unit := do
  if rootIno ≠ Mkfs.rootIno then throw .assert
  addEntry junk rootIno rootIno [0x2E]
  addEntry junk rootIno rootIno [0x2E, 0x2E]
  files.forM (addFile junk rootIno)
  finish junk rootIno

/-- `main` with the image opened, for the files that follow it. -/
def mkfs (files : List Source) : Io faults Unit := do
  format
  let rootIno ← ialloc junk tDir
  fillRoot junk rootIno files

end Program

end Faulty

/-! ## Harmless transfers -/

/-- A write of `n` bytes leaves the image of a whole block. -/
theorem Image.write_eq_iff (img : Image) (off : Nat) {n : Nat} (buf : Buf) (hn : n ≤ bSize) :
    img.write off n buf = img.write off bSize buf ↔
      ∀ k, n ≤ k → k < bSize → off + bSize ≤ img.size ∧ img.data (off + k) = buf k := by
  have hb : bSize ≠ 0 := by decide
  constructor
  · intro heq k hk hkb
    have hsize := congrArg Image.size heq
    have hdata := congrFun (congrArg Image.data heq) (off + k)
    simp only [Image.write, if_neg hb] at hsize hdata
    rw [if_neg (by omega), if_pos (by omega), Nat.add_sub_cancel_left] at hdata
    refine ⟨?_, hdata⟩
    split_ifs at hsize <;> omega
  · intro h
    rcases Nat.lt_or_eq_of_le hn with hlt | rfl
    · have hsize := (h n le_rfl hlt).1
      simp only [Image.write, if_neg hb]
      congr 1
      · split_ifs <;> omega
      · funext a
        by_cases hin : off + n ≤ a ∧ a < off + bSize
        · have hbyte := (h (a - off) (by omega) (by omega)).2
          rw [if_neg (by omega), if_pos (by omega), ← hbyte, Nat.add_sub_cancel' (by omega)]
        · have hiff : (off ≤ a ∧ a < off + n) ↔ (off ≤ a ∧ a < off + bSize) := by omega
          simp only [hiff]
    · rfl

theorem Image.write_zeros {img : Image} (h : img.data = fun _ => 0) (off n : Nat) :
    (img.write off n fun _ => 0).data = fun _ => 0 := by
  funext a
  simp only [Image.write, h, ite_self]

theorem Image.readOver_eq_iff (img : Image) (off : Nat) {n : Nat} (buf : Buf) (hn : n ≤ bSize) :
    img.readOver off n buf = img.readOver off bSize buf ↔
      ∀ k, n ≤ k → k < bSize → off + k < img.size → img.data (off + k) = buf k := by
  constructor
  · intro heq k hk hkb hin
    have hbyte := congrFun heq k
    rw [Image.readOver, Image.readOver, if_neg (by omega), if_pos ⟨hkb, hin⟩] at hbyte
    exact hbyte.symm
  · intro h
    funext i
    rw [Image.readOver, Image.readOver]
    by_cases hin : n ≤ i ∧ i < bSize ∧ off + i < img.size
    · rw [if_neg (by omega), if_pos hin.2, h i hin.1 hin.2.1 hin.2.2]
    · have hiff : (i < n ∧ off + i < img.size) ↔ (i < bSize ∧ off + i < img.size) := by omega
      simp only [hiff]

/-- Complete, or clearing a block that is not the last: harmless, whatever the image has. -/
abbrev Access.Idle (a : Access) : Prop := a.moved = bSize ∨ a.kind = .clear ∧ a.sec.toNat + 1 < fsSize

theorem Access.Idle.harmless {a : Access} (h : a.Idle) : a.Harmless := by
  rcases h with hmoved | ⟨hkind, hsec⟩
  · unfold Access.Harmless
    split
    · exact .inl hmoved
    · intro k hk hkb
      omega
    · intro k hk hkb
      omega
  · unfold Access.Harmless
    rw [hkind]
    exact .inr hsec

theorem wsect_eq (sec : Word) (buf : Buf) (fs : Fs) : wsect sec buf fs =
    { fs with image := fs.image.write (sec * 512).toNat bSize buf }.note (.wsect sec) := rfl

namespace Faulty
variable {faults : Nat → Outcome}

/-- The program without faults has the outcome of every run without harm. -/
abbrev Sim {α : Type} (x : Io faults α) (f : Fs → Except Abort (α × Fs)) : Prop :=
  Simulates Run.fs Run.Clean x f

theorem transfer_clean {kind : Access.Kind} {sec : Word} {buf : Buf} {fs : Fs} {d : Run faults} :
    (d.transfer kind sec buf fs).Clean ↔
      (Access.mk kind sec buf d.fs.image d.moved).Harmless ∧ d.Clean :=
  List.forall_mem_cons

theorem getFs_sim : Sim (getFs : Io faults Fs) fun fs => .ok (fs, fs) :=
  Simulates.step fun _ hclean => ⟨hclean, rfl⟩

theorem onFs_sim {α : Type} (g : Fs → α × Fs) : Sim (onFs g : Io faults α) fun fs => .ok (g fs) :=
  Simulates.step fun _ hclean => ⟨hclean, rfl⟩

theorem wsect_sim (sec : Word) (buf : Buf) :
    Sim (wsect sec buf : Io faults Unit) fun fs => .ok ((), Mkfs.wsect sec buf fs) := by
  refine Simulates.step fun d hclean => ?_
  obtain ⟨hharmless, hclean⟩ := transfer_clean.mp hclean
  refine ⟨hclean, ?_⟩
  have himage := (Image.write_eq_iff d.fs.image (sec * 512).toNat buf d.moved_le).mpr hharmless
  rw [wsect_eq, ← himage]
  rfl

theorem rsect_sim (sec : Word) (buf : Buf) :
    Sim (rsect sec buf : Io faults Buf) fun fs => .ok (Mkfs.rsect sec buf fs) := by
  refine Simulates.step fun d hclean => ?_
  obtain ⟨hharmless, hclean⟩ := transfer_clean.mp hclean
  refine ⟨hclean, ?_⟩
  have hbuf := (Image.readOver_eq_iff d.fs.image (sec * 512).toNat buf d.moved_le).mpr hharmless
  exact Prod.ext hbuf.symm rfl

section Program
variable (junk : Junk)

theorem rinode_sim (inum : Word) :
    Sim (rinode junk inum : Io faults Dinode) fun fs => .ok (Mkfs.rinode junk inum fs) := by
  refine (getFs_sim.bind fun fs => (rsect_sim _ _).bind fun buf => .pure _).congr fun fs => ?_
  rfl

theorem winode_sim (inum : Word) (ip : Dinode) :
    Sim (winode junk inum ip : Io faults Unit) fun fs => .ok ((), Mkfs.winode junk inum ip fs) := by
  refine (getFs_sim.bind fun fs => (rsect_sim _ _).bind fun buf =>
    (wsect_sim _ _).bind fun _ => onFs_sim _).congr fun fs => ?_
  rfl

theorem ialloc_sim (type : Half) :
    Sim (ialloc junk type : Io faults Word) fun fs => .ok (Mkfs.ialloc junk type fs) := by
  refine ((onFs_sim _).bind fun inum => (winode_sim junk inum _).bind fun _ => .pure inum).congr
    fun fs => ?_
  rfl

theorem balloc_sim (used : Nat) :
    Sim (balloc used : Io faults Unit) fun fs => (Mkfs.balloc used fs).map fun fs => ((), fs) := by
  by_cases hused : used < bSize * 8
  · simp only [balloc, Mkfs.balloc, if_pos hused]
    exact (getFs_sim.bind fun fs => wsect_sim _ _).congr fun _ => rfl
  · simp only [balloc, Mkfs.balloc, if_neg hused]
    exact (getFs_sim.bind fun fs => .throw _).congr fun _ => rfl

theorem indirectBlock_sim (din : Dinode) :
    Sim (indirectBlock din : Io faults Dinode) fun fs => .ok
      (if xint (din.addrs 12) = 0 then (din.setAddr 12 (xint fs.freeblock), fs.bump) else (din, fs)) := by
  unfold indirectBlock
  split_ifs
  · exact ((onFs_sim _).bind fun b => .pure _).congr fun _ => rfl
  · exact .pure _

theorem entryBlock_sim (j : Nat) (din : Dinode) (indirect : Buf) :
    Sim (entryBlock j din indirect : Io faults (Word × Dinode × Buf)) fun fs => .ok
      (if load32 indirect j = 0 then
        let indirect := store32 indirect j (xint fs.freeblock)
        ((xint (load32 indirect j), din, indirect), Mkfs.wsect (xint (din.addrs 12)) indirect fs.bump)
      else ((xint (load32 indirect j), din, indirect), fs)) := by
  unfold entryBlock
  split_ifs
  · exact ((onFs_sim _).bind fun b => (wsect_sim _ _).bind fun _ => .pure _).congr fun _ => rfl
  · exact .pure _

theorem iappendBlock_sim (fbn : Nat) (din : Dinode) (indirect : Buf) :
    Sim (iappendBlock fbn din indirect : Io faults (Word × Dinode × Buf)) fun fs =>
      let (x, din, indirect, fs) := Mkfs.iappendBlock fbn din indirect fs
      .ok ((x, din, indirect), fs) := by
  unfold iappendBlock Mkfs.iappendBlock
  by_cases hfbn : fbn < directNum
  · simp only [dif_pos hfbn]
    split_ifs
    · exact ((onFs_sim _).bind fun b => .pure _).congr fun _ => rfl
    · exact .pure _
  · simp only [dif_neg hfbn]
    refine ((indirectBlock_sim din).bind fun din => (rsect_sim _ _).bind fun indirect =>
      entryBlock_sim _ din indirect).congr fun fs => ?_
    simp only [bind, Except.bind]
    split_ifs <;> rfl

theorem iappendLoop_sim : ∀ (fuel : Nat) (p : List Byte) (off : Word) (din : Dinode)
    (indirect buf : Buf),
    Sim (iappendLoop fuel p off din indirect buf : Io faults (Word × Dinode)) fun fs =>
      (Mkfs.iappendLoop fuel p off din indirect buf fs).map fun r => ((r.1, r.2.1), r.2.2)
  | fuel, [], off, din, indirect, buf => by
    cases fuel <;> exact .pure _
  | 0, c :: p, off, din, indirect, buf => .throw _
  | fuel + 1, c :: p, off, din, indirect, buf => by
    by_cases hfbn : (off / 512).toNat < maxFile
    · simp only [iappendLoop, Mkfs.iappendLoop, if_pos hfbn]
      refine ((iappendBlock_sim _ _ _).bind fun r => (rsect_sim _ _).bind fun buf =>
        (wsect_sim _ _).bind fun _ => iappendLoop_sim fuel _ _ _ _ _).congr fun fs => ?_
      rfl
    · simp only [iappendLoop, Mkfs.iappendLoop, if_neg hfbn]
      exact .throw _

theorem iappend_sim (inum : Word) (xp : List Byte) : Sim (iappend junk inum xp : Io faults Unit)
    fun fs => (Mkfs.iappend junk inum xp fs).map fun fs => ((), fs) := by
  refine ((rinode_sim junk inum).bind fun din => getFs_sim.bind fun fs =>
    (iappendLoop_sim _ _ _ _ _ _).bind fun r => winode_sim junk inum _).congr fun fs => ?_
  simp only [Mkfs.iappend, bind, Except.bind]
  cases Mkfs.iappendLoop xp.length xp (xint (Mkfs.rinode junk inum fs).1.size)
    (Mkfs.rinode junk inum fs).1 (junk .indirect (Mkfs.rinode junk inum fs).2.log)
    (junk .iappend (Mkfs.rinode junk inum fs).2.log) (Mkfs.rinode junk inum fs).2 with
  | error e => rfl
  | ok r => rfl

theorem addEntry_sim (rootIno inum : Word) (name : List Byte) :
    Sim (addEntry junk rootIno inum name : Io faults Unit) fun fs =>
      (Mkfs.addEntry junk rootIno inum name fs).map fun fs => ((), fs) :=
  iappend_sim junk rootIno _

theorem readChunks_sublist (fails : Nat → Bool) (cs : List (List Byte)) :
    List.Sublist (readChunks fails cs) cs := by
  induction cs generalizing fails with
  | nil => exact List.Sublist.refl []
  | cons c cs ih =>
    rw [readChunks]
    split_ifs
    · exact List.nil_sublist _
    · exact (ih _).cons_cons c

/-- The file as the loop over `read` sees it. -/
def Source.seen (f : Source) : InFile where
  name := f.file.name
  chunks := readChunks f.fails f.file.chunks
  name_ne := f.file.name_ne
  chunks_le := fun c hc => f.file.chunks_le c ((readChunks_sublist f.fails f.file.chunks).subset hc)

theorem addFile_sim (rootIno : Word) (f : Source) : Sim (addFile junk rootIno f : Io faults Unit)
    fun fs => (Mkfs.addFile junk rootIno fs f.seen).map fun fs => ((), fs) := by
  unfold addFile Mkfs.addFile
  by_cases hname : 0x2F ∈ f.file.name
  · have hname' : 0x2F ∈ f.seen.name := hname
    simp only [if_pos hname, if_pos hname']
    exact .throw _
  · have hname' : 0x2F ∉ f.seen.name := hname
    simp only [if_neg hname, if_neg hname']
    refine ((ialloc_sim junk tFile).bind fun inum => (addEntry_sim junk rootIno inum _).seq
      (.forM fun c _ => iappend_sim junk inum c)).congr fun fs => ?_
    rfl

theorem finish_sim (rootIno : Word) : Sim (finish junk rootIno : Io faults Unit) fun fs =>
    (let (din, fs) := Mkfs.rinode junk rootIno fs
      let fs := Mkfs.winode junk rootIno { din with size := xint ((xint din.size / 512 + 1) * 512) } fs
      Mkfs.balloc fs.freeblock.toNat fs).map fun fs => ((), fs) := by
  refine ((rinode_sim junk rootIno).bind fun din => (winode_sim junk rootIno _).bind fun _ =>
    getFs_sim.bind fun fs => balloc_sim _).congr fun fs => ?_
  rfl

end Program

end Faulty

/-- `main` behind the allocation of the root, without faults. -/
def fillRoot (junk : Junk) (rootIno : Word) (files : List InFile) (fs : Fs) : Except Abort Fs := do
  if rootIno ≠ Mkfs.rootIno then throw .assert
  let fs ← addEntry junk rootIno rootIno [0x2E] fs
  let fs ← addEntry junk rootIno rootIno [0x2E, 0x2E] fs
  let fs ← files.foldlM (addFile junk rootIno) fs
  let (din, fs) := rinode junk rootIno fs
  let fs := winode junk rootIno { din with size := xint ((xint din.size / 512 + 1) * 512) } fs
  balloc fs.freeblock.toNat fs

theorem mkfs_eq_fillRoot (junk : Junk) (files : List InFile) : mkfs junk files =
    fillRoot junk (ialloc junk tDir format).1 files (ialloc junk tDir format).2 := by
  unfold mkfs
  generalize format = fs
  rfl

namespace Faulty
variable {faults : Nat → Outcome} (junk : Junk)

theorem fillRoot_sim (rootIno : Word) (files : List Source) :
    Sim (fillRoot junk rootIno files : Io faults Unit) fun fs =>
      (Mkfs.fillRoot junk rootIno (files.map Source.seen) fs).map fun fs => ((), fs) := by
  have hfiles : Sim (files.forM (addFile junk rootIno) : Io faults Unit) fun fs =>
      ((files.map Source.seen).foldlM (Mkfs.addFile junk rootIno) fs).map fun fs => ((), fs) := by
    simp only [List.foldlM_map]
    exact .forM fun f _ => addFile_sim junk rootIno f
  unfold fillRoot Mkfs.fillRoot
  by_cases hroot : rootIno ≠ Mkfs.rootIno
  · simp only [if_pos hroot]
    exact .throw _
  · simp only [if_neg hroot]
    exact (addEntry_sim junk rootIno rootIno _).seq ((addEntry_sim junk rootIno rootIno _).seq
      (hfiles.seq (finish_sim junk rootIno)))

/-! ### The cleared image -/

/-- The program's variables, over an image of zeros that may be too short. -/
structure Cleared (n : Nat) (d : Run faults) : Prop where
  vars : d.fs = { Mkfs.clearLoop n (start : Run faults).fs with image := d.fs.image }
  data : d.fs.image.data = fun _ => 0
  size : d.fs.image.size ≤ n * bSize

/-- The last write of the loop decides on the size of the image. -/
theorem clearLoop_cleared (faults : Nat → Outcome) : ∀ n ≤ fsSize, ∃ d : Run faults,
    Prog.exec (clearLoop n) start = (.ok (), d) ∧ Cleared n d ∧
      (n = fsSize → d.Clean → d.fs.image.size = fsSize * bSize) := by
  intro n
  induction n with
  | zero =>
    intro hn
    refine ⟨start, rfl, ⟨rfl, rfl, Nat.zero_le _⟩, fun h0 => ?_⟩
    exact absurd h0 (by decide)
  | succ n ih =>
    intro hn
    obtain ⟨d, hrun, hcleared, -⟩ := ih (Nat.le_of_succ_le hn)
    have hlt : n < 1000 := hn
    have hsec : (BitVec.ofNat 32 n).toNat = n := by
      rw [BitVec.toNat_ofNat]
      omega
    have hoff : (BitVec.ofNat 32 n * 512).toNat = n * bSize := by
      rw [sector_toNat (by rw [hsec]; exact hlt), hsec, Nat.mul_comm]
    have hmoved := d.moved_le
    have hsize := hcleared.size
    have hwrite : (d.fs.image.write (BitVec.ofNat 32 n * 512).toNat d.moved fun _ => 0).size =
        if d.moved = 0 then d.fs.image.size else max d.fs.image.size (n * bSize + d.moved) := by
      rw [Image.write, hoff]
    refine ⟨_, Prog.exec_bind_ok hrun, ⟨?_, Image.write_zeros hcleared.data _ _, ?_⟩, fun hlast hclean => ?_⟩
    · have hvars := congrArg (fun fs : Fs => Fs.note { fs with
        image := d.fs.image.write (BitVec.ofNat 32 n * 512).toNat d.moved fun _ => 0 }
        (.wsect (BitVec.ofNat 32 n))) hcleared.vars
      exact hvars
    · refine hwrite.trans_le ?_
      rw [Nat.succ_mul]
      split_ifs <;> omega
    · have hfull : d.moved = bSize := by
        refine (transfer_clean.mp hclean).1.resolve_right fun hnot => ?_
        simp only [hsec] at hnot
        omega
      refine hwrite.trans ?_
      rw [hfull, if_neg (by decide), ← hlast, Nat.succ_mul]
      omega

theorem clearLoop_exec (faults : Nat → Outcome) : ∃ d : Run faults,
    Prog.exec (clearLoop fsSize) start = (.ok (), d) ∧
    (d.Clean → d.fs = Mkfs.clearLoop fsSize (start : Run faults).fs) := by
  obtain ⟨d, hrun, hcleared, hsize⟩ := clearLoop_cleared faults fsSize le_rfl
  refine ⟨d, hrun, fun hclean => ?_⟩
  obtain ⟨hdata', hsize'⟩ := clearLoop_spec fsSize le_rfl (start : Run faults).fs rfl rfl
  have himage : d.fs.image = (Mkfs.clearLoop fsSize (start : Run faults).fs).image :=
    congrArg₂ Image.mk ((hsize rfl hclean).trans hsize'.symm) (hcleared.data.trans hdata'.symm)
  rw [hcleared.vars, himage]

theorem format_exec (faults : Nat → Outcome) : ∃ d : Run faults, Prog.exec format start = (.ok (), d) ∧
    (d.Clean → d.fs = Mkfs.format) := by
  obtain ⟨d, hrun, hfs⟩ := clearLoop_exec faults
  refine ⟨_, Prog.exec_bind_ok hrun, fun hclean => ?_⟩
  obtain ⟨hclean', heq⟩ := wsect_sim 1 _ d hclean
  rw [hfs hclean'] at heq
  exact (Prod.mk.inj (Except.ok.inj heq)).2.symm

/-- A run without harm is a run without faults, of the files that the reads have left. -/
theorem mkfs_simulates {files : List Source} {r : Except Abort Unit} {d : Run faults}
    (hrun : Prog.exec (mkfs junk files) start = (r, d)) (hclean : d.Clean) :
    Mkfs.mkfs junk (files.map Source.seen) = r.map fun _ => d.fs := by
  obtain ⟨d₀, hformat, hfs⟩ := format_exec faults
  have hsim : Sim (ialloc junk tDir >>= fun rootIno => fillRoot junk rootIno files : Io faults Unit)
      fun fs => (Mkfs.fillRoot junk (Mkfs.ialloc junk tDir fs).1 (files.map Source.seen)
        (Mkfs.ialloc junk tDir fs).2).map fun fs => ((), fs) :=
    ((ialloc_sim junk tDir).bind fun rootIno => fillRoot_sim junk rootIno files).congr fun _ => rfl
  have hexec : Prog.exec (ialloc junk tDir >>= fun rootIno => fillRoot junk rootIno files) d₀ =
      (r, d) :=
    (Prog.exec_bind_ok hformat).symm.trans hrun
  have houtcome := hsim.outcome (s := d₀)
  rw [hexec] at houtcome
  obtain ⟨hclean₀, heq⟩ := houtcome hclean
  rw [mkfs_eq_fillRoot, ← hfs hclean₀]
  exact heq

theorem readChunks_full {fails : Nat → Bool} {cs : List (List Byte)}
    (h : ∀ k < cs.length, fails k = false) : readChunks fails cs = cs := by
  induction cs generalizing fails with
  | nil => rfl
  | cons c cs ih =>
    rw [readChunks, h 0 (Nat.zero_lt_succ _), ih fun k hk => h (k + 1) (Nat.succ_lt_succ hk)]
    rfl

/-- **`main`'s success.** When `main` returns 0, the image is that of a run without faults on the same
files, if no `read` of a file has failed before the end of the file and what each call on the image
left out made no difference. -/
theorem mkfs_success {files : List Source} {d : Run faults}
    (hrun : Prog.exec (mkfs junk files) start = (.ok (), d)) (hclean : d.Clean)
    (hread : ∀ f ∈ files, ∀ k < f.file.chunks.length, f.fails k = false) :
    ∃ fs, Mkfs.mkfs junk (files.map Source.file) = .ok fs ∧ d.fs.image = fs.image := by
  have hseen : files.map Source.seen = files.map Source.file := by
    refine List.map_congr_left fun f hf => ?_
    have hchunks := readChunks_full (hread f hf)
    cases f
    simp only [Source.seen, hchunks]
  have hsim := mkfs_simulates junk hrun hclean
  rw [hseen] at hsim
  exact ⟨d.fs, hsim, rfl⟩

/-- A file "t" with the text "hi"; the `read` at its end fails. -/
def textFile : Source := ⟨⟨[0x74], [[0x68, 0x69]], by decide, by decide⟩, fun k => k ≠ 0⟩

/-- The first call on the image fails: the `lseek` for block 0, in the loop that clears it. -/
def firstFails (i : Nat) : Outcome := if i = 0 then .fail else .full

/-- Block 0 has its zeros all the same: the writes behind it make the image longer than it. -/
theorem mkfs_success_first_fails : ∃ d : Run firstFails,
    Prog.exec (mkfs (fun _ _ _ => 0xCC) [textFile]) start = (.ok (), d) ∧
      (∃ a ∈ d.trace, a.moved = 0) ∧
      ∃ fs, Mkfs.mkfs (fun _ _ _ => 0xCC) [textFile.file] = .ok fs ∧ d.fs.image = fs.image := by
  have hok : (Prog.exec (mkfs (fun _ _ _ => 0xCC) [textFile]) (start : Run firstFails)).1.isOk = true := by
    decide +kernel
  have hidle : ∀ a ∈ (Prog.exec (mkfs (fun _ _ _ => 0xCC) [textFile]) (start : Run firstFails)).2.trace,
      a.Idle := by
    decide +kernel
  have hfault : ∃ a ∈ (Prog.exec (mkfs (fun _ _ _ => 0xCC) [textFile]) (start : Run firstFails)).2.trace,
      a.moved = 0 := by
    decide +kernel
  rcases hrun : Prog.exec (mkfs (fun _ _ _ => 0xCC) [textFile]) (start : Run firstFails) with ⟨r, d⟩
  rw [hrun] at hok hidle hfault
  cases r with
  | ok u =>
    have hread : ∀ f ∈ [textFile], ∀ k < f.file.chunks.length, f.fails k = false := by
      decide
    have hsuccess := mkfs_success _ hrun (fun a ha => (hidle a ha).harmless) hread
    rw [List.map_singleton] at hsuccess
    exact ⟨d, rfl, hfault, hsuccess⟩
  | error e => cases hok

/-- All calls fail, `main` returns 0, and the image has no byte. -/
theorem mkfs_all_fail : ∃ d : Run fun _ => .fail,
    Prog.exec (mkfs (fun _ _ _ => 0) []) start = (.ok (), d) ∧
      d.fs.image.size = 0 ∧
      ∃ fs, Mkfs.mkfs (fun _ _ _ => 0) [] = .ok fs ∧ d.fs.image ≠ fs.image := by
  obtain ⟨fs₁, fs, hmkfs, hbuilt, hfinished⟩ := mkfs_room (fun _ _ _ => 0) [] (by decide)
    (by decide) (by decide) (by decide)
  have hok : (Prog.exec (mkfs (fun _ _ _ => 0) []) (start : Run fun _ => .fail)).1.isOk = true := by
    decide +kernel
  have hsize : (Prog.exec (mkfs (fun _ _ _ => 0) []) (start : Run fun _ => .fail)).2.fs.image.size = 0 := by
    decide +kernel
  have hsuper : (readSuperblock ((Prog.exec (mkfs (fun _ _ _ => 0) [])
      (start : Run fun _ => .fail)).2.fs.image.blk 1)).size = 0 := by
    decide +kernel
  rcases hrun : Prog.exec (mkfs (fun _ _ _ => 0) []) (start : Run fun _ => .fail) with ⟨r, d⟩
  rw [hrun] at hok hsize hsuper
  cases r with
  | ok u =>
    refine ⟨d, rfl, hsize, fs, hmkfs, fun himage => ?_⟩
    rw [himage, hfinished.blk 1 (.inr rfl), hbuilt.steady.super] at hsuper
    exact absurd hsuper (by decide)
  | error e => cases hok

end Faulty

end TuixOS.Mkfs
