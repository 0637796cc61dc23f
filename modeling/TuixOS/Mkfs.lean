import TuixOS.Lib.Bytes
import Mathlib.Data.List.Basic

/-!
# `tools/mkfs.c`

The image file is a size and a byte at each offset; `lseek`, `read` and `write` on it succeed, with a
short `read` at its end. A `uint32_t` is a `Word` in the order of the host, which is little-endian.
`junk` is what the buffers on the stack hold when a function starts. `Fs.log` records what has been
done, and no function reads it but `junk`, which may differ from call to call.
-/

namespace TuixOS.Mkfs

open Lib

/-! ## `fs.h` -/

def fsSize : Nat := 1000
def rootIno : Word := 1
def bSize : Nat := 512
def logSize : Nat := 30
def directNum : Nat := 12
def indirectNum : Nat := 128
def maxFile : Nat := directNum + indirectNum
def dirSize : Nat := 14
/-- Inodes in a block. -/
def ipb : Nat := 8
/-- Bits in a block. -/
def bpb : Nat := bSize * 8

def inodesNum : Nat := 200
def bitmapNum : Nat := fsSize / bpb + 1
def inodeBlocksNum : Nat := inodesNum / ipb + 1
def metaNum : Nat := 2 + logSize + inodeBlocksNum + bitmapNum
def blocksNum : Nat := fsSize - metaNum

def tDir : Half := 1
def tFile : Half := 2

abbrev Buf := Nat → Byte

structure Superblock where
  size : Word
  nblocks : Word
  ninodes : Word
  nlog : Word
  logstart : Word
  inodestart : Word
  bmapstart : Word
  deriving DecidableEq

/-- `addrs` has an entry. -/
instance addrs_neZero : NeZero 13 := ⟨by decide⟩

theorem direct_lt {fbn : Nat} (h : fbn < directNum) : fbn < 13 := Nat.lt_succ_of_lt h

/-- `struct dinode`; `addrs` ends with the indirect block. -/
structure Dinode where
  type : Half
  major : Half
  minor : Half
  nlink : Half
  size : Word
  addrs : Fin 13 → Word

/-- `struct dirent` -/
structure Dirent where
  inum : Half
  name : List Byte

/-! ### The structures in memory -/

def Superblock.byte (sb : Superblock) (k : Nat) : Byte :=
  if k < 4 then byteOf sb.size k
  else if k < 8 then byteOf sb.nblocks (k - 4)
  else if k < 12 then byteOf sb.ninodes (k - 8)
  else if k < 16 then byteOf sb.nlog (k - 12)
  else if k < 20 then byteOf sb.logstart (k - 16)
  else if k < 24 then byteOf sb.inodestart (k - 20)
  else byteOf sb.bmapstart (k - 24)

def Dinode.byte (d : Dinode) (k : Nat) : Byte :=
  if k < 2 then byteOf d.type k
  else if k < 4 then byteOf d.major (k - 2)
  else if k < 6 then byteOf d.minor (k - 4)
  else if k < 8 then byteOf d.nlink (k - 6)
  else if k < 12 then byteOf d.size (k - 8)
  else byteOf (d.addrs (Fin.ofNat 13 ((k - 12) / 4))) ((k - 12) % 4)

def readSuperblock (buf : Buf) : Superblock where
  size := load32 buf 0
  nblocks := load32 buf 4
  ninodes := load32 buf 8
  nlog := load32 buf 12
  logstart := load32 buf 16
  inodestart := load32 buf 20
  bmapstart := load32 buf 24

/-- The `struct dinode` at `a`. -/
def readDinode (buf : Buf) (a : Nat) : Dinode where
  type := load16 buf a
  major := load16 buf (a + 2)
  minor := load16 buf (a + 4)
  nlink := load16 buf (a + 6)
  size := load32 buf (a + 8)
  addrs k := load32 buf (a + 12 + 4 * k)

def writeDinode (buf : Buf) (a : Nat) (d : Dinode) : Buf := fun i =>
  if a ≤ i ∧ i < a + 64 then d.byte (i - a) else buf i

def Dirent.bytes (de : Dirent) : List Byte := [byteOf de.inum 0, byteOf de.inum 1] ++ de.name

/-! ## The image and the program's variables -/

structure Image where
  size : Nat
  data : Buf

/-- What a run has done. -/
inductive Event
  | wsect (sec : Word)
  /-- A `read` of fewer than `B_SIZE` bytes. -/
  | short (sec : Word)
  | ialloc (inum : Word)
  | winode (bn inum : Word) (ip : Dinode)
  /-- `freeblock++` -/
  | alloc (x : Word)

structure Fs where
  image : Image
  sb : Superblock
  freeinode : Word
  freeblock : Word
  /-- The latest first. -/
  log : List Event

/-- The buffers on the stack. -/
inductive Local
  | rinode
  | winode
  | iappend
  | indirect

/-- What a buffer holds when its function starts. -/
abbrev Junk := Local → List Event → Buf

inductive Abort
  | assert
  | diverge
  deriving DecidableEq

def xshort (x : Half) : Half := word16 (byteOf x 0) (byteOf x 1)

def xint (x : Word) : Word := word32 (byteOf x 0) (byteOf x 1) (byteOf x 2) (byteOf x 3)

def Fs.note (fs : Fs) (e : Event) : Fs := { fs with log := e :: fs.log }

def wsect (sec : Word) (buf : Buf) (fs : Fs) : Fs :=
  let off := (sec * 512).toNat
  let image : Image :=
    { size := max fs.image.size (off + bSize)
      data := fun a => if off ≤ a ∧ a < off + bSize then buf (a - off) else fs.image.data a }
  { fs with image := image }.note (.wsect sec)

/-- `buf` with the sector read over it, as far as the file reaches. -/
def rsect (sec : Word) (buf : Buf) (fs : Fs) : Buf × Fs :=
  let off := (sec * 512).toNat
  (fun i => if i < bSize ∧ off + i < fs.image.size then fs.image.data (off + i) else buf i,
    if off + bSize ≤ fs.image.size then fs else fs.note (.short sec))

/-- `IBLOCK(i, sb)` -/
def iblock (i : Word) (sb : Superblock) : Word := i / 8 + sb.inodestart

def memmove (buf : Buf) (o : Nat) (xs : List Byte) : Buf := fun i =>
  if o ≤ i ∧ i < o + xs.length then xs.getD (i - o) 0 else buf i

section Program
variable (junk : Junk)

def rinode (inum : Word) (fs : Fs) : Dinode × Fs :=
  let bn := iblock inum fs.sb
  let (buf, fs) := rsect bn (junk .rinode fs.log) fs
  (readDinode buf (64 * (inum % 8).toNat), fs)

def winode (inum : Word) (ip : Dinode) (fs : Fs) : Fs :=
  let bn := iblock inum fs.sb
  let (buf, fs) := rsect bn (junk .winode fs.log) fs
  let buf := writeDinode buf (64 * (inum % 8).toNat) ip
  (wsect bn buf fs).note (.winode bn inum ip)

def ialloc (type : Half) (fs : Fs) : Word × Fs :=
  let inum := fs.freeinode
  let fs := { fs with freeinode := fs.freeinode + 1 }.note (.ialloc inum)
  let din : Dinode :=
    { type := xshort type, major := 0, minor := 0, nlink := xshort 1, size := xint 0, addrs := fun _ => 0 }
  (inum, winode junk inum din fs)

/-- The bits that the loop of `balloc` has set when `i` is `used`. -/
def ballocLoop : Nat → Buf
  | 0 => fun _ => 0
  | i + 1 => Function.update (ballocLoop i) (i / 8) (ballocLoop i (i / 8) ||| 1 <<< (i % 8))

def balloc (used : Nat) (fs : Fs) : Except Abort Fs :=
  if used < bSize * 8 then .ok (wsect fs.sb.bmapstart (ballocLoop used) fs) else .error .assert

/-! ### `iappend` -/

def Dinode.setAddr (d : Dinode) (k : Fin 13) (x : Word) : Dinode :=
  { d with addrs := Function.update d.addrs k x }

/-- `freeblock++` -/
def Fs.bump (fs : Fs) : Fs := { fs with freeblock := fs.freeblock + 1 }.note (.alloc fs.freeblock)

/-- The block `x` of the file's block `fbn`, which gets one if it has none. -/
def iappendBlock (fbn : Nat) (din : Dinode) (indirect : Buf) (fs : Fs) : Word × Dinode × Buf × Fs :=
  if h : fbn < directNum then
    let k : Fin 13 := ⟨fbn, direct_lt h⟩
    if xint (din.addrs k) = 0 then
      let din := din.setAddr k (xint fs.freeblock)
      (xint (din.addrs k), din, indirect, fs.bump)
    else (xint (din.addrs k), din, indirect, fs)
  else
    let (din, fs) :=
      if xint (din.addrs 12) = 0 then (din.setAddr 12 (xint fs.freeblock), fs.bump) else (din, fs)
    let (indirect, fs) := rsect (xint (din.addrs 12)) indirect fs
    let j := 4 * (fbn - directNum)
    if load32 indirect j = 0 then
      let indirect := store32 indirect j (xint fs.freeblock)
      let fs := wsect (xint (din.addrs 12)) indirect fs.bump
      (xint (load32 indirect j), din, indirect, fs)
    else (xint (load32 indirect j), din, indirect, fs)

/-- The loop of `iappend` over the bytes left at `p`. -/
def iappendLoop : Nat → List Byte → Word → Dinode → Buf → Buf → Fs → Except Abort (Word × Dinode × Fs)
  | _, [], off, din, _, _, fs => .ok (off, din, fs)
  | 0, _ :: _, _, _, _, _, _ => .error .diverge
  | fuel + 1, p, off, din, indirect, buf, fs =>
    let fbn := (off / 512).toNat
    if fbn < maxFile then
      let (x, din, indirect, fs) := iappendBlock fbn din indirect fs
      let n1 := min p.length ((off / 512 + 1) * 512 - off).toNat
      let (buf, fs) := rsect x buf fs
      let buf := memmove buf (off % 512).toNat (p.take n1)
      let fs := wsect x buf fs
      iappendLoop fuel (p.drop n1) (off + BitVec.ofNat 32 n1) din indirect buf fs
    else .error .assert

/-- Every pass takes at least one byte. -/
def iappend (inum : Word) (xp : List Byte) (fs : Fs) : Except Abort Fs := do
  let (din, fs) := rinode junk inum fs
  let off := xint din.size
  let (off, din, fs) ←
    iappendLoop xp.length xp off din (junk .indirect fs.log) (junk .iappend fs.log) fs
  return winode junk inum { din with size := xint off } fs

/-! ### `main` -/

/-- `strncpy(de.name, s, DIR_SIZE)` for a string without its end. -/
def strncpy (s : List Byte) : List Byte := (s ++ List.replicate dirSize 0).take dirSize

/-- A file of the command line, with the pieces that `read` returns. -/
structure InFile where
  name : List Byte
  chunks : List (List Byte)
  name_ne : ∀ c ∈ name, c ≠ 0
  chunks_le : ∀ c ∈ chunks, c ≠ [] ∧ c.length ≤ bSize

/-- `for(i = 0; i < FS_SIZE; i++) wsect(i, zeroes)` up to `i`. -/
def clearLoop : Nat → Fs → Fs
  | 0, fs => fs
  | i + 1, fs => wsect (BitVec.ofNat 32 i) (fun _ => 0) (clearLoop i fs)

def superblock : Superblock where
  size := xint (BitVec.ofNat 32 fsSize)
  nblocks := xint (BitVec.ofNat 32 blocksNum)
  ninodes := xint (BitVec.ofNat 32 inodesNum)
  nlog := xint (BitVec.ofNat 32 logSize)
  logstart := xint 2
  inodestart := xint (BitVec.ofNat 32 (2 + logSize))
  bmapstart := xint (BitVec.ofNat 32 (2 + logSize + inodeBlocksNum))

/-- The layout and the zeroed image, with the superblock in block 1. -/
def format : Fs :=
  wsect 1 (fun i => if i < 28 then superblock.byte i else 0) <| clearLoop fsSize
    { image := ⟨0, fun _ => 0⟩
      sb := superblock
      freeinode := 1
      freeblock := BitVec.ofNat 32 metaNum
      log := [] }

/-- A directory entry `name` in the root. -/
def addEntry (rootIno inum : Word) (name : List Byte) (fs : Fs) : Except Abort Fs :=
  iappend junk rootIno (Dirent.bytes ⟨xshort (inum.setWidth 16), strncpy name⟩) fs

/-- The body of the loop over the arguments. -/
def addFile (rootIno : Word) (fs : Fs) (f : InFile) : Except Abort Fs := do
  if 0x2F ∈ f.name then throw .assert
  let (inum, fs) := ialloc junk tFile fs
  let fs ← addEntry junk rootIno inum f.name fs
  f.chunks.foldlM (fun fs c => iappend junk inum c fs) fs

/-- `main` with the image opened, for the files that follow it. -/
def mkfs (files : List InFile) : Except Abort Fs := do
  let (rootIno, fs) := ialloc junk tDir format
  if rootIno ≠ Mkfs.rootIno then throw .assert
  let fs ← addEntry junk rootIno rootIno [0x2E] fs
  let fs ← addEntry junk rootIno rootIno [0x2E, 0x2E] fs
  let fs ← files.foldlM (addFile junk rootIno) fs
  let (din, fs) := rinode junk rootIno fs
  let off := xint din.size
  let off := (off / 512 + 1) * 512
  let fs := winode junk rootIno { din with size := xint off } fs
  balloc fs.freeblock.toNat fs

end Program

end TuixOS.Mkfs
