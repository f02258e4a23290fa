import Mathlib.Data.Nat.Notation
import Mathlib.Logic.Function.Basic
import Xv6.Lib.PanicM

/-!
# Physical pages and page tables

`kalloc.c`, and of `vm.c` the functions that build and take down page tables:
`walkpgdir`, `mappages`, `setupkvm`, `allocuvm`, `deallocuvm`, `freevm`, `clearpteu`
and `copyuvm`.

A page is known by its number, its physical address divided by `PGSIZE`. Page
directories and page tables are pages of words; an entry is the number of a page and
the flag bits.
-/

namespace Xv6.Vm

open Xv6.Lib

/-! ## §1  Addresses and entries -/

def pgSize : ℕ := 4096

/-- `NPDENTRIES` and `NPTENTRIES`. -/
def nEntries : ℕ := 1024

def kernBase : ℕ := 0x80000000
def extMem : ℕ := 0x100000
def physTop : ℕ := 0xE000000
def devSpace : ℕ := 0xFE000000

/-- The pages below `KERNBASE`. -/
def userPages : ℕ := kernBase / pgSize

def pdx (va : ℕ) : ℕ := va / (pgSize * nEntries) % nEntries
def ptx (va : ℕ) : ℕ := va / pgSize % nEntries

def pgRoundUp (sz : ℕ) : ℕ := (sz + pgSize - 1) / pgSize * pgSize
def pgRoundDown (a : ℕ) : ℕ := a / pgSize * pgSize

def pteP : ℕ := 1
def pteW : ℕ := 2
def pteU : ℕ := 4

/-- `*pte & PTE_P`. -/
def Present (w : ℕ) : Prop := w % 2 = 1

instance (w : ℕ) : Decidable (Present w) := inferInstanceAs (Decidable (_ = _))

/-- `PTE_ADDR`, as the number of the page. -/
def pteAddr (w : ℕ) : ℕ := w / pgSize

def pteFlags (w : ℕ) : ℕ := w % pgSize

/-- `pa | perm | PTE_P`. -/
def mkPte (page perm : ℕ) : ℕ := page * pgSize + (perm ||| pteP)

/-- `w & ~PTE_U`. -/
def clearU (w : ℕ) : ℕ := w - w / pteU % 2 * pteU

/-! ## §2  Physical memory -/

/-- The words of a page. -/
abbrev Page : Type := ℕ → ℕ

/-- Physical memory and `kmem.freelist`. `first` is the first page behind `end`. -/
structure Phys where
  first : ℕ
  mem : ℕ → Page
  free : List ℕ

/-- The panics of `vm.c` and `kalloc.c`. `nullPte` is the read through the null pointer
in `uva2ka` when there is no page table. -/
inductive Panic where
  | kfree | remap | physTopTooHigh | pteShouldExist | pageNotPresent | clearpteu
  | notAligned | addressShouldExist | nullPte
deriving DecidableEq, Repr

abbrev VmM : Type → Type := PanicM Panic Phys

def Phys.setPage (m : Phys) (f : ℕ) (p : Page) : Phys :=
  { m with mem := Function.update m.mem f p }

def Phys.setWord (m : Phys) (f i w : ℕ) : Phys :=
  m.setPage f (Function.update (m.mem f) i w)

def kalloc : VmM (Option ℕ) := do
  let m ← get
  match m.free with
  | [] => return none
  | f :: fs =>
      set { m with free := fs }
      return some f

/-- `kfree` fills the page with ones. -/
def kfree (f : ℕ) : VmM Unit := do
  let m ← get
  if f < m.first ∨ physTop / pgSize ≤ f then throw .kfree
  else set { m.setPage f (fun _ => 0x01010101) with free := f :: m.free }

/-- `memset(v, 0, PGSIZE)`. -/
def zeroPage (f : ℕ) : VmM Unit := modify fun m => m.setPage f fun _ => 0

/-- `memmove(dst, src, PGSIZE)`. -/
def copyPage (dst src : ℕ) : VmM Unit := modify fun m => m.setPage dst (m.mem src)

def load (f i : ℕ) : VmM ℕ := do
  let m ← get
  return m.mem f i

def store (f i w : ℕ) : VmM Unit := modify fun m => m.setWord f i w

/-! ## §3  Page tables -/

/-- `walkpgdir`: the page table and the index in it. -/
def walkpgdir (pgdir va : ℕ) (alloc : Bool) : VmM (Option (ℕ × ℕ)) := do
  let pde ← load pgdir (pdx va)
  if Present pde then return some (pteAddr pde, ptx va)
  else if alloc then
    match ← kalloc with
    | none => return none
    | some pgtab =>
        zeroPage pgtab
        store pgdir (pdx va) (mkPte pgtab (pteW + pteU))
        return some (pgtab, ptx va)
  else return none

/-- The loop of `mappages`, with `n` pages to go after this one. -/
def mapLoop (pgdir perm : ℕ) : ℕ → ℕ → ℕ → VmM Bool
  | n, a, page => do
    match ← walkpgdir pgdir a true with
    | none => return false
    | some (pgtab, i) =>
        let w ← load pgtab i
        if Present w then throw .remap
        else
          store pgtab i (mkPte page perm)
          match n with
          | 0 => return true
          | n + 1 => mapLoop pgdir perm n (a + pgSize) (page + 1)

/-- `mappages`; `false` is `-1`. -/
def mappages (pgdir va size page perm : ℕ) : VmM Bool :=
  let a := pgRoundDown va
  let last := pgRoundDown (va + size - 1)
  mapLoop pgdir perm ((last - a) / pgSize) a page

/-- `struct kmap`. -/
structure Kmap where
  virt : ℕ
  physStart : ℕ
  physEnd : ℕ
  perm : ℕ

/-- `k->phys_end - k->phys_start`, as a `uint`. -/
def Kmap.size (k : Kmap) : ℕ := (k.physEnd + 2 ^ 32 - k.physStart) % 2 ^ 32

/-- `kmap[]`; `data` is the address of the kernel's data. -/
def kmap (data : ℕ) : List Kmap :=
  [⟨kernBase, 0, extMem, pteW⟩,
    ⟨kernBase + extMem, extMem, data - kernBase, 0⟩,
    ⟨data, data - kernBase, physTop, pteW⟩,
    ⟨devSpace, devSpace, 0, pteW⟩]

/-- The loop of `setupkvm`. -/
def mapKernel (pgdir : ℕ) : List Kmap → VmM Bool
  | [] => return true
  | k :: ks => do
      if ← mappages pgdir k.virt k.size (k.physStart / pgSize) k.perm then
        mapKernel pgdir ks
      else return false

/-- The body of `deallocuvm`'s loop, for a page table that is there. -/
def freeEntry (pgtab i : ℕ) : VmM Unit := do
  let w ← load pgtab i
  if Present w then
    if pteAddr w = 0 then throw .kfree
    else
      kfree (pteAddr w)
      store pgtab i 0
  else return ()

/-- The loop of `deallocuvm`. A missing page table is skipped as a whole. -/
def deallocLoop (pgdir oldsz a : ℕ) : VmM Unit :=
  if a < oldsz then do
    match ← walkpgdir pgdir a false with
    | none =>
        deallocLoop pgdir oldsz ((a / (pgSize * nEntries) + 1) * (pgSize * nEntries))
    | some (pgtab, i) =>
        freeEntry pgtab i
        deallocLoop pgdir oldsz (a + pgSize)
  else return ()
termination_by oldsz - a
decreasing_by
  · simp only [pgSize, nEntries]
    omega
  · simp only [pgSize]
    omega

def deallocuvm (pgdir oldsz newsz : ℕ) : VmM ℕ := do
  if oldsz ≤ newsz then return oldsz
  else
    deallocLoop pgdir oldsz (pgRoundUp newsz)
    return newsz

/-- The second loop of `freevm`, over the entries `is`. -/
def freeTables (pgdir : ℕ) : List ℕ → VmM Unit
  | [] => return ()
  | i :: is => do
      let pde ← load pgdir i
      if Present pde then kfree (pteAddr pde)
      freeTables pgdir is

def freevm (pgdir : ℕ) : VmM Unit := do
  let _ ← deallocuvm pgdir kernBase 0
  freeTables pgdir (List.range nEntries)
  kfree pgdir

/-- `setupkvm`; `none` is the null pointer. -/
def setupkvm (ks : List Kmap) : VmM (Option ℕ) := do
  match ← kalloc with
  | none => return none
  | some pgdir =>
      zeroPage pgdir
      if devSpace < kernBase + physTop then throw .physTopTooHigh
      else if ← mapKernel pgdir ks then return some pgdir
      else
        freevm pgdir
        return none

/-- The loop of `allocuvm`. -/
def allocLoop (pgdir oldsz newsz a : ℕ) : VmM ℕ :=
  if a < newsz then do
    match ← kalloc with
    | none =>
        let _ ← deallocuvm pgdir newsz oldsz
        return 0
    | some mem =>
        zeroPage mem
        if ← mappages pgdir a pgSize mem (pteW + pteU) then
          allocLoop pgdir oldsz newsz (a + pgSize)
        else
          let _ ← deallocuvm pgdir newsz oldsz
          kfree mem
          return 0
  else return newsz
termination_by newsz - a
decreasing_by
  simp only [pgSize]
  omega

/-- `allocuvm`: the new size, or 0. -/
def allocuvm (pgdir oldsz newsz : ℕ) : VmM ℕ :=
  if kernBase ≤ newsz then return 0
  else if newsz < oldsz then return oldsz
  else allocLoop pgdir oldsz newsz (pgRoundUp oldsz)

def clearpteu (pgdir uva : ℕ) : VmM Unit := do
  match ← walkpgdir pgdir uva false with
  | none => throw .clearpteu
  | some (pgtab, i) =>
      let w ← load pgtab i
      store pgtab i (clearU w)

/-- The first half of `copyuvm`'s loop: the entry of the page at `i`. -/
def copyFetch (pgdir i : ℕ) : VmM ℕ := do
  match ← walkpgdir pgdir i false with
  | none => throw .pteShouldExist
  | some (pgtab, j) =>
      let w ← load pgtab j
      if Present w then return w else throw .pageNotPresent

/-- The second half: a copy of the page, in the directory `d`. -/
def copyStore (d i w : ℕ) : VmM Bool := do
  match ← kalloc with
  | none => return false
  | some mem =>
      copyPage mem (pteAddr w)
      if ← mappages d i pgSize mem (pteFlags w) then return true
      else
        kfree mem
        return false

/-- The loop of `copyuvm`. -/
def copyLoop (pgdir d sz i : ℕ) : VmM (Option ℕ) :=
  if i < sz then do
    let w ← copyFetch pgdir i
    if ← copyStore d i w then copyLoop pgdir d sz (i + pgSize)
    else
      freevm d
      return none
  else return some d
termination_by sz - i
decreasing_by
  simp only [pgSize]
  omega

def copyuvm (ks : List Kmap) (pgdir sz : ℕ) : VmM (Option ℕ) := do
  match ← setupkvm ks with
  | none => return none
  | some d => copyLoop pgdir d sz 0

end Xv6.Vm
