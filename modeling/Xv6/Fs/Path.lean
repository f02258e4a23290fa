import Xv6.Fs.Inode

/-!
# Directories, path names and system calls

The directory and name layers of fs.c, the functions of file.c, the system calls of
sysfile.c, and what `fork` and `exit` do to files and directories. Names and paths
are lists of bytes without the final 0. What has nothing to do with inodes is an
argument of the call (whether there is memory) or left out (the data of pipes).
-/

namespace Xv6.Inodes

open Xv6.Lib

/-! ## §1  Directories -/

def dirsiz : ℕ := 14

/-- `sizeof(struct dirent)` -/
def direntSize : ℕ := 16

/-- `de.inum` -/
def direntInum (de : List UInt8) : ℕ := (de.getD 0 0).toNat + 256 * (de.getD 1 0).toNat

/-- `de.name`, up to its final 0. -/
def direntName (de : List UInt8) : List UInt8 :=
  ((de.drop 2).take dirsiz).takeWhile fun c => c != 0

/-- A `struct dirent`: the low bytes of `inum`, and the name filled up by
`strncpy`. -/
def dirent (inum : ℕ) (name : List UInt8) : List UInt8 :=
  UInt8.ofNat inum :: UInt8.ofNat (inum / 256) ::
    (name.take dirsiz ++ List.replicate (dirsiz - name.length) 0)

/-- `namecmp(name, t) == 0` -/
def sameName (name t : List UInt8) : Bool := name.take dirsiz == t.take dirsiz

/-- The loop of `dirlookup`, from `off` on. -/
def dirlookupLoop (dp : Slot) (name : List UInt8) : ℕ → ℕ → M (Option (Slot × ℕ))
  | 0, _ => return none
  | fuel + 1, off => do
      if (← slot dp).d.size ≤ off then return none
      let some de ← readi dp off direntSize | throw .dirlookupRead
      if de.length ≠ direntSize then throw .dirlookupRead
      if direntInum de ≠ 0 ∧ sameName name (direntName de) = true then
        let ip ← iget (direntInum de)
        return some (ip, off)
      dirlookupLoop dp name fuel (off + direntSize)

/-- `dirlookup`: the inode of an entry and the offset of the entry. The size of the
directory is enough fuel for its entries. -/
def dirlookup (dp : Slot) (name : List UInt8) : M (Option (Slot × ℕ)) := do
  let ip ← slot dp
  if ip.d.kind ≠ .dir then throw .dirlookupNotDir
  dirlookupLoop dp name (ip.d.size + 1) 0

/-- The loop of `dirlink`: the offset of the first empty entry. -/
def dirlinkLoop (dp : Slot) : ℕ → ℕ → M ℕ
  | 0, off => return off
  | fuel + 1, off => do
      if (← slot dp).d.size ≤ off then return off
      let some de ← readi dp off direntSize | throw .dirlinkRead
      if de.length ≠ direntSize then throw .dirlinkRead
      if direntInum de = 0 then return off
      dirlinkLoop dp fuel (off + direntSize)

/-- `dirlink`. -/
def dirlink (dp : Slot) (name : List UInt8) (inum : ℕ) : M ℤ := do
  match ← dirlookup dp name with
  | some (ip, _) => do
      iput ip
      return -1
  | none => do
      let off ← dirlinkLoop dp ((← slot dp).d.size + 1) 0
      if (← writei dp (dirent inum name) off) ≠ direntSize then throw .dirlink
      return 0

/-- The loop of `isdirempty`. -/
def isdiremptyLoop (dp : Slot) : ℕ → ℕ → M Bool
  | 0, _ => return true
  | fuel + 1, off => do
      if (← slot dp).d.size ≤ off then return true
      let some de ← readi dp off direntSize | throw .isdirempty
      if de.length ≠ direntSize then throw .isdirempty
      if direntInum de ≠ 0 then return false
      isdiremptyLoop dp fuel (off + direntSize)

def isdirempty (dp : Slot) : M Bool := do
  isdiremptyLoop dp ((← slot dp).d.size + 1) (2 * direntSize)

/-! ## §2  Path names -/

def slash : UInt8 := 47

/-- `.` and `..` -/
def dot : List UInt8 := [46]
def dotdot : List UInt8 := [46, 46]

/-- `skipelem`: the first element of a path, cut to `DIRSIZ` bytes, and the rest of
the path behind the slashes. -/
def skipelem (path : List UInt8) : Option (List UInt8 × List UInt8) :=
  match path.dropWhile (· == slash) with
  | [] => none
  | p => some ((p.takeWhile (· != slash)).take dirsiz,
      (p.dropWhile (· != slash)).dropWhile (· == slash))

/-- `ROOTINO` -/
def rootino : ℕ := 1

/-- The end of `namex`, when the path is used up. -/
def namexEnd (parent : Bool) (ip : Slot) : M (Option (Slot × List UInt8)) := do
  if parent then
    iput ip
    return none
  return some (ip, [])

/-- The loop of `namex`. A path has at most as many elements as bytes. -/
def namexLoop (parent : Bool) : ℕ → Slot → List UInt8 → M (Option (Slot × List UInt8))
  | 0, ip, _ => namexEnd parent ip
  | fuel + 1, ip, path =>
      match skipelem path with
      | none => namexEnd parent ip
      | some (name, path) => do
          ilock ip
          if (← slot ip).d.kind ≠ .dir then
            iunlockput ip
            return none
          if parent && path.isEmpty then
            iunlock ip
            return some (ip, name)
          match ← dirlookup ip name with
          | none => do
              iunlockput ip
              return none
          | some (next, _) => do
              iunlockput ip
              namexLoop parent fuel next path

/-- `namex`, in a process whose current directory is `cwd`. -/
def namex (cwd : Slot) (path : List UInt8) (parent : Bool) :
    M (Option (Slot × List UInt8)) := do
  let ip ← if path.head? = some slash then iget rootino else idup cwd
  namexLoop parent path.length ip path

/-! ## §3  Files -/

def beginOp : M Unit := modify fun s => { s with outstanding := s.outstanding + 1 }

def endOp : M Unit := modify fun s => { s with outstanding := s.outstanding - 1 }

def setFile (f : FileId) (v : File) : M Unit :=
  modify fun s => { s with file := Function.update s.file f v }

def setProc (p : Pid) (v : Proc) : M Unit :=
  modify fun s => { s with proc := Function.update s.proc p v }

/-- `p->ofile[fd] = f` -/
def setOfile (p : Pid) (fd : Fd) (f : Option FileId) : M Unit := do
  let proc := (← get).proc p
  setProc p { proc with ofile := Function.update proc.ofile fd f }

/-- `p->cwd = ip` -/
def setCwd (p : Pid) (ip : Option Slot) : M Unit := do
  let proc := (← get).proc p
  setProc p { proc with cwd := ip }

def filealloc : M (Option FileId) := do
  let s ← get
  match (List.finRange 100).find? fun f => decide ((s.file f).ref = 0) with
  | some f => do
      setFile f { s.file f with ref := 1 }
      return some f
  | none => return none

def filedup (f : FileId) : M Unit := do
  let file := (← get).file f
  if file.ref < 1 then throw .filedup
  setFile f { file with ref := file.ref + 1 }

def fileclose (f : FileId) : M Unit := do
  let file := (← get).file f
  if file.ref < 1 then throw .fileclose
  if 0 < file.ref - 1 then
    setFile f { file with ref := file.ref - 1 }
  else
    setFile f { file with ref := 0, type := .none }
    if file.type = .inode then
      beginOp
      iput file.ip
      endOp

/-- `struct stat` -/
structure Stat where
  ino : ℕ
  type : Kind
  nlink : ℤ
  size : ℕ

def filestat (f : FileId) : M (Option Stat) := do
  let file := (← get).file f
  if file.type = .inode then
    ilock file.ip
    let ip ← slot file.ip
    iunlock file.ip
    return some { ino := ip.inum, type := ip.d.kind, nlink := ip.d.nlink, size := ip.d.size }
  return none

/-- `fileread`; the data of a pipe are left out. -/
def fileread (f : FileId) (n : ℕ) : M (Option (List UInt8)) := do
  let file := (← get).file f
  if file.readable = false then return none
  match file.type with
  | .pipe => return some []
  | .inode => do
      ilock file.ip
      let r ← readi file.ip file.off n
      if 0 < (r.getD []).length then
        setFile f { file with off := (file.off + (r.getD []).length) % uintSize }
      iunlock file.ip
      return r
  | .none => throw .fileread

/-- `((MAXOPBLOCKS-1-1-2) / 2) * 512` -/
def maxWrite : ℕ := (10 - 1 - 1 - 2) / 2 * 512

/-- The loop of `filewrite`: whether all bytes have been written. -/
def filewriteLoop (f : FileId) : ℕ → List UInt8 → M Bool
  | 0, _ => return true
  | fuel + 1, src =>
      if src.length = 0 then return true else do
        let n1 := min src.length maxWrite
        beginOp
        let file := (← get).file f
        ilock file.ip
        let r ← writei file.ip (src.take n1) file.off
        if 0 < r then
          setFile f { file with off := (file.off + r.toNat) % uintSize }
        iunlock file.ip
        endOp
        if r < 0 then return false
        if r ≠ n1 then throw .shortFilewrite
        filewriteLoop f fuel (src.drop n1)

/-- `filewrite`; the data of a pipe are left out. -/
def filewrite (f : FileId) (src : List UInt8) : M ℤ := do
  let file := (← get).file f
  if file.writable = false then return -1
  match file.type with
  | .pipe => return src.length
  | .inode => do
      if ← filewriteLoop f src.length src then return src.length
      return -1
  | .none => throw .filewrite

/-! ## §4  System calls -/

/-- A path as `argstr` finds it; the argument of a call is `none` if it fails. -/
abbrev Str := { path : List UInt8 // 0 ∉ path }

/-- `argfd`; `fd` is `none` if the argument is not a number of a descriptor. -/
def argfd (p : Pid) (fd : Option Fd) : M (Option (Fd × FileId)) := do
  let proc := (← get).proc p
  return fd.bind fun fd => (proc.ofile fd).map fun f => (fd, f)

def fdalloc (p : Pid) (f : FileId) : M (Option Fd) := do
  let proc := (← get).proc p
  match (List.finRange 16).find? fun fd => (proc.ofile fd).isNone with
  | some fd => do
      setOfile p fd (some f)
      return some fd
  | none => return none

def sysDup (p : Pid) (fd : Option Fd) : M ℤ := do
  let some (_, f) ← argfd p fd | return -1
  let some fd ← fdalloc p f | return -1
  filedup f
  return fd.val

/-- `sys_read`; `n` is `none` if `argptr` fails, which it does if the number is
negative. -/
def sysRead (p : Pid) (fd : Option Fd) (n : Option (Fin 2147483648)) : M ℤ := do
  let some (_, f) ← argfd p fd | return -1
  let some n := n | return -1
  match ← fileread f n with
  | some bs => return bs.length
  | none => return -1

/-- `sys_write`; `src` is `none` if `argptr` fails. -/
def sysWrite (p : Pid) (fd : Option Fd) (src : Option (List UInt8)) : M ℤ := do
  let some (_, f) ← argfd p fd | return -1
  let some src := src | return -1
  filewrite f src

def sysClose (p : Pid) (fd : Option Fd) : M ℤ := do
  let some (fd, f) ← argfd p fd | return -1
  setOfile p fd none
  fileclose f
  return 0

/-- `sys_fstat`; `st` says whether `argptr` succeeds. -/
def sysFstat (p : Pid) (fd : Option Fd) (st : Bool) : M ℤ := do
  let some (_, f) ← argfd p fd | return -1
  if st = false then return -1
  match ← filestat f with
  | some _ => return 0
  | none => return -1

/-- `f(ip); iupdate(ip)` -/
def store (i : Slot) (f : Dinode → Dinode) : M Unit := do
  setData i f
  iupdate i

/-- `ip->nlink += v; iupdate(ip)` -/
def addLink (i : Slot) (v : ℤ) : M Unit :=
  store i fun d => { d with nlink := toShort (d.nlink + v) }

/-- The end of `sys_link` behind the label `bad`. -/
def linkBad (ip : Slot) : M ℤ := do
  ilock ip
  addLink ip (-1)
  iunlockput ip
  endOp
  return -1

def sysLink (cwd : Slot) (old new : Option Str) : M ℤ := do
  let some old := old | return -1
  let some new := new | return -1
  beginOp
  let some (ip, _) ← namex cwd old.val false | do
    endOp
    return -1
  ilock ip
  if (← slot ip).d.kind = .dir then
    iunlockput ip
    endOp
    return -1
  addLink ip 1
  iunlock ip
  let some (dp, name) ← namex cwd new.val true | linkBad ip
  ilock dp
  if (← dirlink dp name (← slot ip).inum) < 0 then
    iunlockput dp
    linkBad ip
  else
    iunlockput dp
    iput ip
    endOp
    return 0

/-- `ip->type == T_DIR && !isdirempty(ip)` -/
def isFullDir (ip : Slot) : M Bool := do
  if (← slot ip).d.kind = .dir then return !(← isdirempty ip)
  return false

/-- The end of `sys_unlink` behind the label `bad`. -/
def unlinkBad (dp : Slot) : M ℤ := do
  iunlockput dp
  endOp
  return -1

/-- `sys_unlink` overwrites an entry. -/
def clearEntry (dp : Slot) (off : ℕ) : M Unit := do
  if (← writei dp (List.replicate direntSize 0) off) ≠ direntSize then throw .unlinkWritei

def sysUnlink (cwd : Slot) (path : Option Str) : M ℤ := do
  let some path := path | return -1
  beginOp
  let some (dp, name) ← namex cwd path.val true | do
    endOp
    return -1
  ilock dp
  if sameName name dot || sameName name dotdot then unlinkBad dp
  else
    let some (ip, off) ← dirlookup dp name | unlinkBad dp
    ilock ip
    if (← slot ip).d.nlink < 1 then throw .unlinkNlink
    if ← isFullDir ip then
      iunlockput ip
      unlinkBad dp
    else
      clearEntry dp off
      if (← slot ip).d.kind = .dir then addLink dp (-1)
      iunlockput dp
      addLink ip (-1)
      iunlockput ip
      endOp
      return 0

/-- The part of `create` for directories: the entries `.` and `..`. -/
def createDots (dp ip : Slot) : M Unit := do
  addLink dp 1
  if (← dirlink ip dot (← slot ip).inum) < 0 then throw .createDots
  if (← dirlink ip dotdot (← slot dp).inum) < 0 then throw .createDots

/-- `create`: the inode is locked. -/
def create (cwd : Slot) (path : Str) (k : Kind) (major minor : ℤ) :
    M (Option Slot) := do
  let some (dp, name) ← namex cwd path.val true | return none
  ilock dp
  match ← dirlookup dp name with
  | some (ip, _) => do
      iunlockput dp
      ilock ip
      if k = .file ∧ (← slot ip).d.kind = .file then return some ip
      iunlockput ip
      return none
  | none => do
      let ip ← ialloc k
      ilock ip
      store ip fun d => { d with major := toShort major, minor := toShort minor, nlink := 1 }
      if k = .dir then createDots dp ip
      if (← dirlink dp name (← slot ip).inum) < 0 then throw .createDirlink
      iunlockput dp
      return some ip

/-- The part of `sys_open` that finds the inode, and locks it; `O_CREATE` is bit 9 of
`omode`, and `O_RDONLY` is 0. -/
def openInode (cwd : Slot) (path : Str) (omode : ℕ) : M (Option Slot) := do
  if omode.testBit 9 then create cwd path .file 0 0
  else
    let some (ip, _) ← namex cwd path.val false | return none
    ilock ip
    if (← slot ip).d.kind = .dir ∧ omode ≠ 0 then
      iunlockput ip
      return none
    return some ip

/-- `sys_open`; `O_WRONLY` is bit 0 of `omode` and `O_RDWR` bit 1. -/
def sysOpen (p : Pid) (cwd : Slot) (path : Option Str) (omode : ℕ) : M ℤ := do
  let some path := path | return -1
  beginOp
  let some ip ← openInode cwd path omode | do
    endOp
    return -1
  let some f ← filealloc | do
    iunlockput ip
    endOp
    return -1
  let some fd ← fdalloc p f | do
    fileclose f
    iunlockput ip
    endOp
    return -1
  iunlock ip
  endOp
  let file := (← get).file f
  setFile f { file with
    type := .inode
    ip := ip
    off := 0
    readable := !omode.testBit 0
    writable := omode.testBit 0 || omode.testBit 1 }
  return fd.val

/-- `sys_mkdir` and `sys_mknod`. -/
def sysMake (cwd : Slot) (path : Option Str) (k : Kind) (major minor : ℤ) : M ℤ := do
  beginOp
  let some path := path | do
    endOp
    return -1
  let some ip ← create cwd path k major minor | do
    endOp
    return -1
  iunlockput ip
  endOp
  return 0

def sysMkdir (cwd : Slot) (path : Option Str) : M ℤ := sysMake cwd path .dir 0 0

def sysMknod (cwd : Slot) (path : Option Str) (major minor : ℤ) : M ℤ :=
  sysMake cwd path .dev major minor

def sysChdir (p : Pid) (cwd : Slot) (path : Option Str) : M ℤ := do
  beginOp
  let some path := path | do
    endOp
    return -1
  let some (ip, _) ← namex cwd path.val false | do
    endOp
    return -1
  ilock ip
  if (← slot ip).d.kind ≠ .dir then
    iunlockput ip
    endOp
    return -1
  iunlock ip
  iput cwd
  endOp
  setCwd p (some ip)
  return 0

/-- `pipealloc`; `page` says whether there is memory. -/
def pipealloc (page : Bool) : M (Option (FileId × FileId)) := do
  let some f₀ ← filealloc | return none
  let some f₁ ← filealloc | do
    fileclose f₀
    return none
  if page = false then
    fileclose f₀
    fileclose f₁
    return none
  let file₀ := (← get).file f₀
  setFile f₀ { file₀ with type := .pipe, readable := true, writable := false }
  let file₁ := (← get).file f₁
  setFile f₁ { file₁ with type := .pipe, readable := false, writable := true }
  return some (f₀, f₁)

/-- `sys_pipe`; `fds` says whether `argptr` succeeds. -/
def sysPipe (p : Pid) (fds page : Bool) : M ℤ := do
  if fds = false then return -1
  let some (rf, wf) ← pipealloc page | return -1
  let some fd₀ ← fdalloc p rf | do
    fileclose rf
    fileclose wf
    return -1
  let some _ ← fdalloc p wf | do
    setOfile p fd₀ none
    fileclose rf
    fileclose wf
    return -1
  return 0

/-! ## §5  Processes -/

/-- The little-endian number of `n` bytes at `pos`. -/
def leAt (bs : List UInt8) (pos : ℕ) : ℕ → ℕ
  | 0 => 0
  | n + 1 => (bs.getD pos 0).toNat + 256 * leAt bs (pos + 1) n

/-- `readi(ip, .., off, n) == n` -/
def readAll (ip : Slot) (off n : ℕ) : M (Option (List UInt8)) := do
  let r ← readi ip off n
  return r.filter fun bs => bs.length = n

/-- The loop of `loaduvm`, from byte `i` on, with `n` pages to go. -/
def loaduvmLoop (ip : Slot) (off filesz : ℕ) : ℕ → ℕ → M Bool
  | 0, _ => return true
  | n + 1, i => do
      if (← readAll ip ((off + i) % uintSize) (min (filesz - i) 4096)).isNone then return false
      loaduvmLoop ip off filesz n (i + 4096)

/-- What becomes of the steps of `exec` that need memory: `setupkvm`, `allocuvm` for the
program header at an offset, and all that comes after the file has been loaded. -/
structure ExecMem where
  setupkvm : Bool
  allocuvm : ℕ → Bool
  finish : Bool

/-- The loop over the program headers: `struct proghdr` has 32 bytes, and `ELF_PROG_LOAD`
is 1. -/
def execLoop (ip : Slot) (mem : ExecMem) : ℕ → ℕ → M Bool
  | 0, _ => return true
  | n + 1, off => do
      let some ph ← readAll ip off 32 | return false
      let memsz := leAt ph 20 4
      let filesz := leAt ph 16 4
      let vaddr := leAt ph 8 4
      if leAt ph 0 4 ≠ 1 then execLoop ip mem n ((off + 32) % uintSize)
      else if memsz < filesz ∨ (vaddr + memsz) % uintSize < vaddr then return false
      else if mem.allocuvm off = false ∨ vaddr % 4096 ≠ 0 then return false
      else
        let loaded ← loaduvmLoop ip (leAt ph 4 4) filesz ((filesz + 4095) / 4096) 0
        if loaded then execLoop ip mem n ((off + 32) % uintSize) else return false

/-- `exec` while the file is locked: `struct elfhdr` has 52 bytes. -/
def execLoad (ip : Slot) (mem : ExecMem) : M Bool := do
  let some elf ← readAll ip 0 52 | return false
  if leAt elf 0 4 ≠ 1179403647 then return false
  if mem.setupkvm = false then return false
  execLoop ip mem (leAt elf 44 2) (leAt elf 28 4)

def exec (cwd : Slot) (path : Option Str) (mem : ExecMem) : M ℤ := do
  let some path := path | return -1
  beginOp
  let some (ip, _) ← namex cwd path.val false | do
    endOp
    return -1
  ilock ip
  let loaded ← execLoad ip mem
  iunlockput ip
  endOp
  if loaded && mem.finish then return 0 else return -1

/-- The loop of `fork` over the descriptors. -/
def forkFiles (p q : Pid) : List Fd → M Unit
  | [] => return ()
  | fd :: fds => do
      match ((← get).proc p).ofile fd with
      | some f => do
          filedup f
          setOfile q fd (some f)
      | none => pure ()
      forkFiles p q fds

/-- `fork` to the entry `q` of the process table, which `allocproc` takes if it is not in
use; `copied` says whether `copyuvm` succeeds. The number of the new process is left
out. -/
def fork (p q : Pid) (cwd : Slot) (copied : Bool) : M ℤ := do
  if ((← get).proc q).cwd.isSome then return -1
  if copied = false then return -1
  forkFiles p q (List.finRange 16)
  let cwd ← idup cwd
  setCwd q (some cwd)
  return 0

/-- The loop of `exit` over the descriptors. -/
def exitFiles (p : Pid) : List Fd → M Unit
  | [] => return ()
  | fd :: fds => do
      match ((← get).proc p).ofile fd with
      | some f => do
          fileclose f
          setOfile p fd none
      | none => pure ()
      exitFiles p fds

def initproc : Pid := 0

def exit (p : Pid) (cwd : Slot) : M ℤ := do
  if p = initproc then throw .initExiting
  exitFiles p (List.finRange 16)
  beginOp
  iput cwd
  endOp
  setCwd p none
  return 0

/-- The calls of a process. -/
inductive Call where
  | dup (fd : Option Fd)
  | read (fd : Option Fd) (n : Option (Fin 2147483648))
  | write (fd : Option Fd) (src : Option (List UInt8))
  | close (fd : Option Fd)
  | fstat (fd : Option Fd) (st : Bool)
  | link (old new : Option Str)
  | unlink (path : Option Str)
  | open (path : Option Str) (omode : ℕ)
  | mkdir (path : Option Str)
  | mknod (path : Option Str) (major minor : ℤ)
  | chdir (path : Option Str)
  | pipe (fds page : Bool)
  | exec (path : Option Str) (mem : ExecMem)
  | fork (q : Pid) (copied : Bool)
  | exit

/-- A call of process `p`, whose current directory is `cwd`. -/
def Call.run (p : Pid) (cwd : Slot) : Call → M ℤ
  | .dup fd => sysDup p fd
  | .read fd n => sysRead p fd n
  | .write fd src => sysWrite p fd src
  | .close fd => sysClose p fd
  | .fstat fd st => sysFstat p fd st
  | .link old new => sysLink cwd old new
  | .unlink path => sysUnlink cwd path
  | .open path omode => sysOpen p cwd path omode
  | .mkdir path => sysMkdir cwd path
  | .mknod path major minor => sysMknod cwd path major minor
  | .chdir path => sysChdir p cwd path
  | .pipe fds page => sysPipe p fds page
  | .exec path mem => Inodes.exec cwd path mem
  | .fork q copied => Inodes.fork p q cwd copied
  | .exit => Inodes.exit p cwd

/-- A step of the system: a process that is in use makes a call, and the call returns. -/
def step (s : Fs) (a : Pid × Call) : Option Fs :=
  match (s.proc a.1).cwd with
  | none => none
  | some cwd =>
      match a.2.run a.1 cwd s with
      | .ok (_, s') => some s'
      | .error _ => none

end Xv6.Inodes
