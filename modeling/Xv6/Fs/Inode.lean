import Mathlib.Data.Fin.VecNotation
import Mathlib.Data.Int.Notation
import Mathlib.Data.Nat.Notation
import Mathlib.Logic.Function.Basic
import Xv6.Lib.PanicM

/-!
# Blocks and inodes

The block, inode and content layers of fs.c: `balloc`, `bfree`, `ialloc`,
`iupdate`, `iget`, `idup`, `ilock`, `iunlock`, `iput`, `bmap`, `itrunc`, `readi`
and `writei`.

The disk is what the calls see through the buffer cache and the log. The inode
area is the table `dinode` and the bitmap the table `bit`; the other blocks are
512 bytes. There is one device. The calls come one after the other, so that a
sleeplock is a flag, and to wait for a lock that is taken is to wait for ever.
-/

namespace Xv6.Inodes

open Xv6.Lib

/-! ## §1  The disk -/

def bsize : ℕ := 512
def ndirect : ℕ := 12

/-- `BSIZE / sizeof(uint)` -/
def nindirect : ℕ := 128

def maxfile : ℕ := ndirect + nindirect

/-- The number of entries of the inode cache. -/
def ninode : ℕ := 50

instance : NeZero ninode := ⟨by decide⟩

def ndev : ℤ := 10

/-- The values of a `uint` are taken modulo this. -/
def uintSize : ℕ := 4294967296

/-- The data of a block. -/
abbrev Block := Fin bsize → UInt8

namespace Block

def zero : Block := fun _ => 0

/-- Byte `i`, and 0 behind the end. -/
def byte (v : Block) (i : ℕ) : ℕ := if h : i < bsize then (v ⟨i, h⟩).toNat else 0

/-- `((uint*)data)[j]` -/
def word (v : Block) (j : ℕ) : ℕ :=
  v.byte (4 * j) + 256 * v.byte (4 * j + 1) + 65536 * v.byte (4 * j + 2) +
    16777216 * v.byte (4 * j + 3)

/-- `((uint*)data)[j] = w` -/
def setWord (v : Block) (j w : ℕ) : Block := fun i =>
  if i.val / 4 = j then UInt8.ofNat (w / 256 ^ (i.val % 4)) else v i

/-- `memmove(data + at, src, length)` -/
def write (v : Block) (pos : ℕ) (src : List UInt8) : Block := fun i =>
  if pos ≤ i.val ∧ i.val < pos + src.length then src.getD (i.val - pos) 0 else v i

/-- `memmove(dst, data + at, n)` -/
def read (v : Block) (pos n : ℕ) : List UInt8 :=
  (List.range n).map fun k => UInt8.ofNat (v.byte (pos + k))

end Block

/-- `type` of an inode; 0 is `free`. -/
inductive Kind where
  | free | dir | file | dev
deriving DecidableEq, Repr

/-- `struct dinode`. -/
structure Dinode where
  kind : Kind
  major : ℤ
  minor : ℤ
  nlink : ℤ
  size : ℕ
  addrs : Fin (ndirect + 1) → ℕ

/-- An inode that is all zero but for its type. -/
def Dinode.new (k : Kind) : Dinode where
  kind := k
  major := 0
  minor := 0
  nlink := 0
  size := 0
  addrs := fun _ => 0

/-- The conversion of an `int` to a `short`. -/
def toShort (v : ℤ) : ℤ := Int.bmod v 65536

structure Superblock where
  size : ℕ
  nblocks : ℕ
  ninodes : ℕ
  nlog : ℕ
  logstart : ℕ
  inodestart : ℕ
  bmapstart : ℕ

namespace Superblock

/-- The boot block, the super block, and the blocks of the log, of the inodes
(`IBLOCK`) and of the bitmap (`BBLOCK`). -/
def Area (sb : Superblock) (b : ℕ) : Prop :=
  b = 0 ∨ b = 1 ∨ (sb.logstart ≤ b ∧ b < sb.logstart + sb.nlog) ∨
  (∃ n, n < sb.ninodes ∧ b = n / 8 + sb.inodestart) ∨
  ∃ c, c < sb.size ∧ b = c / 4096 + sb.bmapstart

/-- The last `nblocks` blocks are for data. -/
def Data (sb : Superblock) (b : ℕ) : Prop := sb.size - sb.nblocks ≤ b ∧ b < sb.size

end Superblock

/-! ## §2  The state -/

/-- An entry of the inode cache; `d` are the copies of the fields on the disk. -/
structure Inode where
  inum : ℕ
  ref : ℤ
  locked : Bool
  valid : Bool
  d : Dinode

/-- A pointer into the inode cache. -/
abbrev Slot := Fin ninode

/-- An entry of `devsw`. -/
structure Driver where
  read : ℕ → Option (List UInt8)
  write : List UInt8 → ℤ

/-- `type` of a `struct file`. -/
inductive FdType where
  | none | pipe | inode
deriving DecidableEq, Repr

/-- A `struct file`; its pipe is left out. -/
structure File where
  type : FdType
  ref : ℤ
  readable : Bool
  writable : Bool
  ip : Slot
  off : ℕ

/-- An index of `ftable.file[NFILE]`. -/
abbrev FileId := Fin 100

/-- An index of `ofile[NOFILE]`. -/
abbrev Fd := Fin 16

/-- An index of `ptable.proc[NPROC]`. -/
abbrev Pid := Fin 64

/-- The current directory of a process, which every process that is in use has, and its
open files. -/
structure Proc where
  cwd : Option Slot
  ofile : Fd → Option FileId

/-- The disk, the inode cache, the devices, the file table, the processes and
`log.outstanding`. `allocs` is history: what `balloc` has returned. -/
structure Fs where
  sb : Superblock
  bit : ℕ → Bool
  dinode : ℕ → Dinode
  block : ℕ → Block
  icache : Slot → Inode
  devsw : ℤ → Option Driver
  file : FileId → File
  proc : Pid → Proc
  outstanding : ℤ
  allocs : List ℕ

/-- The panics of fs.c, file.c, sysfile.c and `exit`; `deadlock` is a thread that sleeps
for ever. -/
inductive Panic where
  | outOfBlocks | freeingFreeBlock | iallocNoInodes | igetNoInodes | ilock | ilockNoType
  | iunlock | bmapOutOfRange | dirlookupNotDir | dirlookupRead | dirlinkRead | dirlink
  | isdirempty | unlinkNlink | unlinkWritei | createDots | createDirlink | filedup | fileclose
  | fileread | filewrite | shortFilewrite | initExiting | deadlock
deriving DecidableEq, Repr

abbrev M := PanicM Panic Fs

def slot (i : Slot) : M Inode := do return (← get).icache i

def setSlot (i : Slot) (ip : Inode) : M Unit :=
  modify fun s => { s with icache := Function.update s.icache i ip }

/-- Assignments to fields of an inode in the cache. -/
def setData (i : Slot) (f : Dinode → Dinode) : M Unit := do
  let ip ← slot i
  setSlot i { ip with d := f ip.d }

def acquiresleep (i : Slot) : M Unit := do
  let ip ← slot i
  if ip.locked then throw .deadlock
  setSlot i { ip with locked := true }

def releasesleep (i : Slot) : M Unit := do
  let ip ← slot i
  setSlot i { ip with locked := false }

/-! ## §3  Blocks -/

/-- `balloc`: the first block whose bit is clear, marked and zeroed. -/
def balloc : M ℕ := do
  let s ← get
  match (List.range s.sb.size).find? fun b => !s.bit b with
  | some b =>
      set { s with
        bit := Function.update s.bit b true
        block := Function.update s.block b .zero
        allocs := b :: s.allocs }
      return b
  | none => throw .outOfBlocks

def bfree (b : ℕ) : M Unit := do
  let s ← get
  if s.bit b = false then throw .freeingFreeBlock
  set { s with bit := Function.update s.bit b false }

/-! ## §4  Inodes -/

/-- Copy an inode of the cache to the disk. -/
def iupdate (i : Slot) : M Unit := do
  let ip ← slot i
  modify fun s => { s with dinode := Function.update s.dinode ip.inum ip.d }

/-- `iget`: an entry that is in use for `inum`, or the first free one. -/
def iget (inum : ℕ) : M Slot := do
  let s ← get
  match (List.finRange ninode).find? fun i =>
      decide (0 < (s.icache i).ref ∧ (s.icache i).inum = inum) with
  | some i =>
      setSlot i { s.icache i with ref := (s.icache i).ref + 1 }
      return i
  | none =>
      match (List.finRange ninode).find? fun i => decide ((s.icache i).ref = 0) with
      | some i =>
          setSlot i { s.icache i with inum := inum, ref := 1, valid := false }
          return i
      | none => throw .igetNoInodes

def idup (i : Slot) : M Slot := do
  let ip ← slot i
  setSlot i { ip with ref := ip.ref + 1 }
  return i

/-- `ialloc`: the first inode whose type is 0. -/
def ialloc (k : Kind) : M Slot := do
  let s ← get
  match (List.range s.sb.ninodes).find? fun n =>
      decide (0 < n ∧ (s.dinode n).kind = .free) with
  | some n =>
      set { s with dinode := Function.update s.dinode n (.new k) }
      iget n
  | none => throw .iallocNoInodes

def ilock (i : Slot) : M Unit := do
  if (← slot i).ref < 1 then throw .ilock
  acquiresleep i
  let ip ← slot i
  if ip.valid then return ()
  let d := (← get).dinode ip.inum
  setSlot i { ip with d := d, valid := true }
  if d.kind = .free then throw .ilockNoType

def iunlock (i : Slot) : M Unit := do
  let ip ← slot i
  if ip.locked = false ∨ ip.ref < 1 then throw .iunlock
  releasesleep i

/-! ## §5  Contents -/

/-- `ip->addrs[k] = b` -/
def Dinode.setAddr (d : Dinode) (k : Fin (ndirect + 1)) (b : ℕ) : Dinode :=
  { d with addrs := Function.update d.addrs k b }

/-- `addrs[NDIRECT]` -/
def indirect : Fin (ndirect + 1) := Fin.last ndirect

/-- `ip->addrs[k]`, allocated if it is 0. -/
def bmapAddr (i : Slot) (k : Fin (ndirect + 1)) : M ℕ := do
  let ip ← slot i
  if ip.d.addrs k = 0 then
    let b ← balloc
    setData i fun d => d.setAddr k b
    return b
  else return ip.d.addrs k

/-- Word `j` of the indirect block `a`, allocated if it is 0. -/
def bmapWord (a j : ℕ) : M ℕ := do
  let v := (← get).block a
  if v.word j = 0 then
    let b ← balloc
    modify fun s => { s with block := Function.update s.block a ((s.block a).setWord j b) }
    return b
  else return v.word j

/-- `bmap`. -/
def bmap (i : Slot) (bn : ℕ) : M ℕ :=
  if h : bn < ndirect then bmapAddr i ⟨bn, by omega⟩
  else if bn - ndirect < nindirect then do
    let a ← bmapAddr i indirect
    bmapWord a (bn - ndirect)
  else throw .bmapOutOfRange

/-- The first loop of `itrunc`. -/
def truncDirect (i : Slot) : List (Fin (ndirect + 1)) → M Unit
  | [] => return ()
  | k :: ks => do
      let ip ← slot i
      if ip.d.addrs k ≠ 0 then
        bfree (ip.d.addrs k)
        setData i fun d => d.setAddr k 0
      truncDirect i ks

/-- The second loop of `itrunc`, over the words of the indirect block. -/
def truncIndirect (v : Block) : List ℕ → M Unit
  | [] => return ()
  | j :: js => do
      if v.word j ≠ 0 then bfree (v.word j)
      truncIndirect v js

/-- The indices `0` to `NDIRECT - 1` of `addrs[]`. -/
def directs : List (Fin (ndirect + 1)) := (List.finRange ndirect).map Fin.castSucc

/-- `itrunc`. -/
def itrunc (i : Slot) : M Unit := do
  truncDirect i directs
  let ip ← slot i
  if ip.d.addrs indirect ≠ 0 then
    let v := (← get).block (ip.d.addrs indirect)
    truncIndirect v (List.range nindirect)
    bfree (ip.d.addrs indirect)
    setData i fun d => d.setAddr indirect 0
  setData i fun d => { d with size := 0 }
  iupdate i

/-- `iput`. -/
def iput (i : Slot) : M Unit := do
  acquiresleep i
  let ip ← slot i
  if ip.valid = true ∧ ip.d.nlink = 0 then
    if ip.ref = 1 then
      itrunc i
      setData i fun d => { d with kind := .free }
      iupdate i
      let ip ← slot i
      setSlot i { ip with valid := false }
  releasesleep i
  let ip ← slot i
  setSlot i { ip with ref := ip.ref - 1 }

def iunlockput (i : Slot) : M Unit := do
  iunlock i
  iput i

/-- The loop of `readi`. Every round reads a byte at least, so that the number of
bytes is enough fuel. -/
def readLoop (i : Slot) : ℕ → ℕ → ℕ → M (List UInt8)
  | 0, _, _ => return []
  | fuel + 1, off, n =>
      if n = 0 then return [] else do
        let b ← bmap i (off / bsize)
        let m := min n (bsize - off % bsize)
        let v := (← get).block b
        let rest ← readLoop i fuel (off + m) (n - m)
        return v.read (off % bsize) m ++ rest

/-- `readi`; the result is `none` for -1. -/
def readi (i : Slot) (off n : ℕ) : M (Option (List UInt8)) := do
  let ip ← slot i
  if ip.d.kind = .dev then
    if ip.d.major < 0 ∨ ndev ≤ ip.d.major then return none
    match (← get).devsw ip.d.major with
    | none => return none
    | some drv => return drv.read n
  if ip.d.size < off ∨ (off + n) % uintSize < off then return none
  let n := if ip.d.size < (off + n) % uintSize then ip.d.size - off else n
  return some (← readLoop i n off n)

/-- The loop of `writei`. Every round writes a byte at least. -/
def writeLoop (i : Slot) : ℕ → ℕ → List UInt8 → M Unit
  | 0, _, _ => return ()
  | fuel + 1, off, src =>
      if src.length = 0 then return () else do
        let b ← bmap i (off / bsize)
        let m := min src.length (bsize - off % bsize)
        modify fun s => { s with
          block := Function.update s.block b ((s.block b).write (off % bsize) (src.take m)) }
        writeLoop i fuel (off + m) (src.drop m)

/-- `writei`. -/
def writei (i : Slot) (src : List UInt8) (off : ℕ) : M ℤ := do
  let ip ← slot i
  if ip.d.kind = .dev then
    if ip.d.major < 0 ∨ ndev ≤ ip.d.major then return -1
    match (← get).devsw ip.d.major with
    | none => return -1
    | some drv => return drv.write src
  let n := src.length
  if ip.d.size < off ∨ (off + n) % uintSize < off then return -1
  if maxfile * bsize < (off + n) % uintSize then return -1
  writeLoop i n off src
  if 0 < n ∧ ip.d.size < off + n then
    setData i fun d => { d with size := off + n }
    iupdate i
  return n

end Xv6.Inodes
