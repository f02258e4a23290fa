import Xv6.Kernel.State
import Xv6.Vm.Accounting

/-!
# `exec`

`exec.c`, with `loaduvm`, `uva2ka` and `copyout` of `vm.c`.

What `exec` takes from elsewhere is a parameter: the inode of a path with what `readi`
returns from it, which siblings have exited at each round of the loop in
`kill_threads`, and whether the caller is to die at the check before the commit. The
log, the inode locks and `switchuvm` touch nothing that is modelled.
-/

namespace Xv6.Vm.Exec

open Xv6.Lib PanicM
open Xv6.Kernel (States Slot MutexId nthread)

/-! ## §1  Processes and files -/

/-- `struct thread`, as far as `exec` reads or writes it; `kstack` is a page. -/
structure Thread where
  state : States
  killed : Bool
  blocked : Bool
  tid : ℤ
  kstack : ℕ
deriving DecidableEq

/-- `struct proc`; `eip` and `esp` are those of the caller's trapframe. -/
structure Proc where
  pgdir : ℕ
  sz : ℕ
  name : List ℕ
  eip : ℕ
  esp : ℕ
  threads : Slot → Thread
  mid : MutexId → ℕ

/-- What `readi` returns for an offset and a count: the bytes read, or `none` for -1. -/
abbrev Inode : Type := ℕ → ℕ → Option (List ℕ)

/-- `readi` of a file with these bytes. -/
def fileInode (data : List ℕ) : Inode := fun off n =>
  if data.length < off ∨ 2 ^ 32 ≤ off + n then none else some ((data.drop off).take n)

structure Env where
  namei : List ℕ → Option Inode
  exits : List (Slot → Bool)
  doomed : Bool

/-! ## §2  `kill_threads` -/

/-- The first loop: mark the siblings, and wake who sleeps. -/
def killSiblings (c : Slot) (p : Proc) : Proc :=
  { p with threads := fun t =>
      let th := p.threads t
      let th := if t ≠ c ∧ th.state ≠ .UNUSED then { th with killed := true } else th
      if th.state = .SLEEPING then { th with state := .RUNNABLE } else th }

/-- Siblings that have exited meanwhile. -/
def exited (c : Slot) (e : Slot → Bool) (p : Proc) : Proc :=
  { p with threads := fun t =>
      if t ≠ c ∧ (p.threads t).state ≠ .UNUSED ∧ e t = true then
        { p.threads t with state := .ZOMBIE }
      else p.threads t }

/-- One round of the waiting loop, over the slots `ts`, with `k` counted so far. -/
def reap (c : Slot) : List Slot → Proc → ℕ → VmM (Proc × ℕ)
  | [], p, k => return (p, k)
  | t :: ts, p, k => do
      let th := p.threads t
      if t ≠ c ∧ th.state = .ZOMBIE then
        kfree th.kstack
        let th := { th with tid := -1, kstack := 0, blocked := false, state := .UNUSED }
        reap c ts { p with threads := Function.update p.threads t th } (k + 1)
      else if t ≠ c ∧ th.state = .UNUSED then reap c ts p (k + 1)
      else reap c ts p k

/-- The waiting loop, one round for each entry of the list; `none` if siblings are left
after the last one. -/
def waitSiblings (c : Slot) : List (Slot → Bool) → Proc → VmM (Option Proc)
  | [], _ => return none
  | e :: es, p => do
      let (p, k) ← reap c (List.finRange nthread) (exited c e p) 0
      if k < nthread - 1 then waitSiblings c es p else return some p

def clearMid (p : Proc) : Proc :=
  { p with mid := fun i => if p.mid i = 1 then 0 else p.mid i }

def killThreads (c : Slot) (es : List (Slot → Bool)) (p : Proc) : VmM (Option Proc) := do
  let r ← waitSiblings c es (killSiblings c p)
  return r.map clearMid

/-! ## §3  The image -/

def byte (bs : List ℕ) (i : ℕ) : ℕ := bs.getD i 0 % 256
def le16 (bs : List ℕ) (i : ℕ) : ℕ := byte bs i + 256 * byte bs (i + 1)
def le32 (bs : List ℕ) (i : ℕ) : ℕ := le16 bs i + 65536 * le16 bs (i + 2)

def elfMagic : ℕ := 0x464C457F

/-- `struct elfhdr`. -/
structure ElfHdr where
  entry : ℕ
  phoff : ℕ
  phnum : ℕ

/-- Read and check the ELF header. -/
def readElf (ip : Inode) : Option ElfHdr :=
  match ip 0 52 with
  | none => none
  | some bs =>
      if bs.length = 52 ∧ le32 bs 0 = elfMagic then
        some ⟨le32 bs 24, le32 bs 28, le16 bs 44⟩
      else none

/-- `struct proghdr`. -/
structure ProgHdr where
  type : ℕ
  off : ℕ
  vaddr : ℕ
  filesz : ℕ
  memsz : ℕ

def readPh (ip : Inode) (off : ℕ) : Option ProgHdr :=
  match ip off 32 with
  | none => none
  | some bs =>
      if bs.length = 32 then
        some ⟨le32 bs 0, le32 bs 4, le32 bs 8, le32 bs 16, le32 bs 20⟩
      else none

/-- Byte `k` of a page. -/
def setByte (p : Page) (k b : ℕ) : Page :=
  let unit := 256 ^ (k % 4)
  Function.update p (k / 4) (p (k / 4) - p (k / 4) / unit % 256 * unit + b % 256 * unit)

def putBytes (p : Page) (k : ℕ) : List ℕ → Page
  | [] => p
  | b :: bs => putBytes (setByte p k b) (k + 1) bs

def writeBytes (f k : ℕ) (bs : List ℕ) : VmM Unit :=
  modify fun m => m.setPage f (putBytes (m.mem f) k bs)

/-- The loop of `loaduvm`. -/
def loadLoop (pgdir addr : ℕ) (ip : Inode) (offset sz i : ℕ) : VmM Bool :=
  if i < sz then do
    match ← walkpgdir pgdir (addr + i) false with
    | none => throw .addressShouldExist
    | some (pgtab, j) =>
        let w ← load pgtab j
        let n := min (sz - i) pgSize
        match ip ((offset + i) % 2 ^ 32) n with
        | none => return false
        | some bs =>
            writeBytes (pteAddr w) 0 bs
            if bs.length = n then loadLoop pgdir addr ip offset sz (i + pgSize)
            else return false
  else return true
termination_by sz - i
decreasing_by
  simp only [pgSize]
  omega

/-- `loaduvm`; `false` is -1. -/
def loaduvm (pgdir addr : ℕ) (ip : Inode) (offset sz : ℕ) : VmM Bool :=
  if addr % pgSize ≠ 0 then throw .notAligned else loadLoop pgdir addr ip offset sz 0

def elfProgLoad : ℕ := 1

/-- The loop over the program headers, with `n` to go; `none` is `goto bad`. -/
def loadSegs (pgdir : ℕ) (ip : Inode) : ℕ → ℕ → ℕ → VmM (Option ℕ)
  | 0, _, sz => return some sz
  | n + 1, off, sz => do
      match readPh ip (off % 2 ^ 32) with
      | none => return none
      | some ph =>
          if ph.type ≠ elfProgLoad then loadSegs pgdir ip n (off + 32) sz
          else if ph.memsz < ph.filesz then return none
          else if (ph.vaddr + ph.memsz) % 2 ^ 32 < ph.vaddr then return none
          else
            let sz ← allocuvm pgdir sz ((ph.vaddr + ph.memsz) % 2 ^ 32)
            if sz = 0 then return none
            else if ph.vaddr % pgSize ≠ 0 then return none
            else if ← loaduvm pgdir ph.vaddr ip ph.off ph.filesz then
              loadSegs pgdir ip n (off + 32) sz
            else return none

/-- `uva2ka`: the page of a user address; `none` is 0. -/
def uva2ka (pgdir uva : ℕ) : VmM (Option ℕ) := do
  match ← walkpgdir pgdir uva false with
  | none => throw .nullPte
  | some (pgtab, j) =>
      let w ← load pgtab j
      if ¬ Present w then return none
      else if ¬ HasU w then return none
      else return some (pteAddr w)

/-- `copyout`; `false` is -1. -/
def copyout (pgdir va : ℕ) (bs : List ℕ) : VmM Bool :=
  if bs = [] then return true
  else do
    let va0 := pgRoundDown va
    match ← uva2ka pgdir va0 with
    | none => return false
    | some pa0 =>
        let n := pgSize - (va - va0)
        writeBytes pa0 (va - va0) (bs.take n)
        copyout pgdir ((va0 + pgSize) % 2 ^ 32) (bs.drop n)
termination_by bs.length
decreasing_by
  have hlt : va - pgRoundDown va < pgSize := by
    unfold pgRoundDown pgSize
    omega
  have hpos : 0 < bs.length := List.length_pos_iff.mpr ‹_›
  rw [List.length_drop]
  omega

/-- `sp - n` as a `uint`. -/
def sub32 (sp n : ℕ) : ℕ := (sp + 2 ^ 32 - n % 2 ^ 32) % 2 ^ 32

def maxArg : ℕ := 32

/-- The loop over the arguments: `sp` and the words of `ustack` behind the third. -/
def pushArgs (pgdir : ℕ) : List (List ℕ) → ℕ → ℕ → List ℕ → VmM (Option (ℕ × List ℕ))
  | [], _, sp, us => return some (sp, us)
  | s :: argv, argc, sp, us => do
      if maxArg ≤ argc then return none
      else
        let sp := sub32 sp (s.length + 1) / 4 * 4
        if ← copyout pgdir sp (s ++ [0]) then pushArgs pgdir argv (argc + 1) sp (us ++ [sp])
        else return none

def leBytes (w : ℕ) : List ℕ :=
  [w % 256, w / 256 % 256, w / 65536 % 256, w / 16777216 % 256]

/-- The fake return PC. -/
def fakePc : ℕ := 0xffffffff

/-- The arguments and `ustack`, from the top of the stack `sz` down: `sp`. -/
def pushStack (pgdir sz : ℕ) (argv : List (List ℕ)) : VmM (Option ℕ) := do
  match ← pushArgs pgdir argv 0 sz [] with
  | none => return none
  | some (sp, us) =>
      let argc := argv.length
      let ustack := [fakePc, argc, sub32 sp ((argc + 1) * 4)] ++ us ++ [0]
      let sp := sub32 sp ((3 + argc + 1) * 4)
      if ← copyout pgdir sp (ustack.flatMap leBytes) then return some sp
      else return none

/-- Two pages behind the program, the first one inaccessible, and the arguments in the
second: the size and `sp`. -/
def makeStack (pgdir sz : ℕ) (argv : List (List ℕ)) : VmM (Option (ℕ × ℕ)) := do
  let sz ← allocuvm pgdir sz (sz + 2 * pgSize)
  if sz = 0 then return none
  else
    clearpteu pgdir (sz - 2 * pgSize)
    match ← pushStack pgdir sz argv with
    | none => return none
    | some sp => return some (sz, sp)

/-- Program, stack and arguments in the new directory. -/
def loadImage (pgdir : ℕ) (ip : Inode) (elf : ElfHdr) (argv : List (List ℕ)) :
    VmM (Option (ℕ × ℕ)) := do
  match ← loadSegs pgdir ip elf.phnum elf.phoff 0 with
  | none => return none
  | some sz => makeStack pgdir (pgRoundUp sz) argv

/-! ## §4  `exec` -/

/-- The last element of the path, as `safestrcpy` copies it into 16 bytes. -/
def baseName (path : List ℕ) : List ℕ :=
  ((path.reverse.takeWhile (· ≠ 47)).reverse).take 15

/-- `exec`: whether it returns 0, and the process; `none` if it does not return. -/
def exec (ks : List Kmap) (env : Env) (c : Slot) (path : List ℕ) (argv : List (List ℕ))
    (p : Proc) : VmM (Option (Bool × Proc)) := do
  match ← killThreads c env.exits p with
  | none => return none
  | some p =>
      match env.namei path with
      | none => return some (false, p)
      | some ip =>
          match readElf ip with
          | none => return some (false, p)
          | some elf =>
              match ← setupkvm ks with
              | none => return some (false, p)
              | some pgdir =>
                  match ← loadImage pgdir ip elf argv with
                  | none =>
                      freevm pgdir
                      return some (false, p)
                  | some (sz, sp) =>
                      let p := { p with name := baseName path }
                      if env.doomed then
                        freevm pgdir
                        return some (false, p)
                      else
                        let oldpgdir := p.pgdir
                        let p := { p with pgdir := pgdir, sz := sz, eip := elf.entry, esp := sp }
                        freevm oldpgdir
                        return some (true, p)

end Xv6.Vm.Exec
