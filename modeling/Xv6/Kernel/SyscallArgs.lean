import Mathlib.Data.Int.Notation
import Mathlib.Data.Nat.Notation
import Mathlib.Order.Basic
import Xv6.Lib.AccessM
import Xv6.Lib.Index

/-!
# Arguments of system calls

`fetchint`, `fetchstr`, `argint`, `argptr` and `argstr` of syscall.c, the loop of
`sys_exec`, and each system call up to the table that it looks its argument up in.
The user memory and the tables are arbitrary. Every access is logged: to a range of
user addresses, or to an entry of a table.
-/

namespace Xv6.SyscallArgs

open Xv6.Lib AccessM

/-! ## §1  The model -/

/-- `KERNBASE` -/
def kernBase : ℕ := 2147483648

/-- `MAXARG` -/
def maxArg : ℕ := 32

/-- The tables of the kernel that are indexed by arguments: `ofile[]`, `threads[]` and
`mid[]` of the process, and `mtable.mutex[]`. -/
inductive Table where
  | ofile | threads | mid | mutex
deriving DecidableEq, Repr

/-- `NOFILE`, `NTHREAD`, `MAX_MUTEXES` -/
def Table.size : Table → ℕ
  | .ofile => 16
  | .threads => 16
  | .mid => 64
  | .mutex => 64

/-- `n` bytes of user memory from `addr` on, or an entry of a table. -/
inductive Access where
  | user (addr : UInt32) (n : ℕ)
  | entry (t : Table) (i : ℤ)
deriving DecidableEq, Repr

/-- The process, its memory and the trap frame of the caller; `table t i` is nonzero
if entry `i` is in use, and what is behind the ends of the tables is arbitrary too. -/
structure User where
  sz : UInt32
  esp : UInt32
  mem : UInt32 → UInt8
  table : Table → ℤ → ℤ
  tid : ℤ

abbrev M := AccessM Access

/-- `*(uint*)addr` -/
def User.word (u : User) (addr : UInt32) : UInt32 :=
  (u.mem addr).toUInt32 + (u.mem (addr + 1)).toUInt32 * 256 +
    (u.mem (addr + 2)).toUInt32 * 65536 + (u.mem (addr + 3)).toUInt32 * 16777216

/-- An entry of a table is read. -/
def lookup (u : User) (t : Table) (i : ℤ) : M ℤ := do
  access (.entry t i)
  return u.table t i

def fetchint (u : User) (addr : UInt32) : M UInt32 := do
  if addr ≥ u.sz ∨ addr + 4 > u.sz then failure
  access (.user addr 4)
  return u.word addr

/-- The loop of `fetchstr`, with `fuel` bytes to go. -/
def fetchstrLoop (u : User) : ℕ → UInt32 → ℕ → M ℕ
  | 0, _, _ => failure
  | fuel + 1, s, len =>
      if s < u.sz then do
        access (.user s 1)
        if u.mem s = 0 then return len
        fetchstrLoop u fuel (s + 1) (len + 1)
      else failure

/-- `fetchstr`: the address of the string and its length. -/
def fetchstr (u : User) (addr : UInt32) : M (UInt32 × ℕ) := do
  if addr ≥ u.sz then failure
  let len ← fetchstrLoop u (u.sz.toNat - addr.toNat) addr 0
  return (addr, len)

/-- The address of the `n`th argument. -/
def User.argAddr (u : User) (n : ℕ) : UInt32 := u.esp + 4 + 4 * UInt32.ofNat n

def argint (u : User) (n : ℕ) : M UInt32 := fetchint u (u.argAddr n)

/-- The value of an `int`. -/
def toInt (v : UInt32) : ℤ := Int.bmod v.toNat 4294967296

/-- `argptr`; `size` is an `int`. -/
def argptr (u : User) (n : ℕ) (size : UInt32) : M UInt32 := do
  let i ← argint u n
  if toInt size < 0 ∨ i ≥ u.sz ∨ i + size > u.sz then failure
  return i

def argstr (u : User) (n : ℕ) : M (UInt32 × ℕ) := do
  let addr ← argint u n
  fetchstr u addr

/-- `argfd` -/
def argfd (u : User) (n : ℕ) : M ℤ := do
  let fd ← argint u n
  if toInt fd < 0 ∨ toInt fd ≥ 16 then failure
  let f ← lookup u .ofile (toInt fd)
  if f = 0 then failure
  return toInt fd

/-- The loop of `sys_exec`: the strings of `argv`. -/
def sysExecLoop (u : User) (uargv : UInt32) : ℕ → ℕ → M (List (UInt32 × ℕ))
  | 0, _ => failure
  | fuel + 1, i => do
      let uarg ← fetchint u (uargv + 4 * UInt32.ofNat i)
      if uarg = 0 then return []
      let arg ← fetchstr u uarg
      let args ← sysExecLoop u uargv fuel (i + 1)
      return arg :: args

/-- `sys_exec`: the path and the arguments. -/
def sysExec (u : User) : M ((UInt32 × ℕ) × List (UInt32 × ℕ)) := do
  let path ← argstr u 0
  let uargv ← argint u 1
  let args ← sysExecLoop u uargv maxArg 0
  return (path, args)

/-- `kthread_join`, up to its loop. -/
def kthreadJoin (u : User) (id : ℤ) : M Unit := do
  if id = u.tid ∨ id < 0 ∨ id > 15 then failure
  let tid ← lookup u .threads id
  if tid ≠ id then failure

/-- The common beginning of `kthread_mutex_dealloc`, `kthread_mutex_lock` and
`kthread_mutex_unlock`. -/
def mutexCall (u : User) (id : ℤ) : M Unit := do
  if id < 0 ∨ id ≥ 64 then failure
  let allocated ← lookup u .mutex id
  if allocated = 0 then failure
  let mid ← lookup u .mid id
  if mid = 0 then failure

def kthreadMutexDealloc (u : User) (id : ℤ) : M Unit := mutexCall u id
def kthreadMutexLock (u : User) (id : ℤ) : M Unit := mutexCall u id
def kthreadMutexUnlock (u : User) (id : ℤ) : M Unit := mutexCall u id

/-- `mutex_tid` -/
def mutexTid (u : User) (id : ℤ) : M Unit := do
  let _ ← lookup u .mutex id

/-- The system calls with arguments. -/
inductive Call where
  | kill | sbrk | sleep | dup | read | write | close | fstat | link | unlink | open
  | mkdir | mknod | chdir | exec | pipe | kthreadCreate | kthreadJoin | kthreadMutexDealloc
  | kthreadMutexLock | kthreadMutexUnlock | mutexTid
deriving DecidableEq, Repr

/-- `sizeof(struct stat)` -/
def statSize : UInt32 := 20

/-- A call as far as it looks at its arguments, in the order of the source. -/
def Call.run (u : User) : Call → M Unit
  | .kill | .sbrk | .sleep => do let _ ← argint u 0
  | .dup | .close => do let _ ← argfd u 0
  | .read | .write => do
      let _ ← argfd u 0
      let n ← argint u 2
      let _ ← argptr u 1 n
  | .fstat => do
      let _ ← argfd u 0
      let _ ← argptr u 1 statSize
  | .link => do
      let _ ← argstr u 0
      let _ ← argstr u 1
  | .unlink | .mkdir | .chdir => do let _ ← argstr u 0
  | .open => do
      let _ ← argstr u 0
      let _ ← argint u 1
  | .mknod => do
      let _ ← argstr u 0
      let _ ← argint u 1
      let _ ← argint u 2
  | .exec => do let _ ← sysExec u
  | .pipe => do let _ ← argptr u 0 8
  | .kthreadCreate => do
      let _ ← argint u 1
      let _ ← argint u 0
  | .kthreadJoin => do SyscallArgs.kthreadJoin u (toInt (← argint u 0))
  | .kthreadMutexDealloc => do SyscallArgs.kthreadMutexDealloc u (toInt (← argint u 0))
  | .kthreadMutexLock => do SyscallArgs.kthreadMutexLock u (toInt (← argint u 0))
  | .kthreadMutexUnlock => do SyscallArgs.kthreadMutexUnlock u (toInt (← argint u 0))
  | .mutexTid => do SyscallArgs.mutexTid u (toInt (← argint u 0))

/-! ## §2  Every access is inside -/

/-- Inside `[0, sz)`, or inside the table. -/
def Access.Inside (u : User) : Access → Prop
  | .user addr n => addr.toNat + n ≤ u.sz.toNat
  | .entry t i => 0 ≤ i ∧ i < t.size

instance (u : User) (a : Access) : Decidable (a.Inside u) :=
  match a with
  | .user .. => inferInstanceAs (Decidable (_ ≤ _))
  | .entry .. => inferInstanceAs (Decidable (_ ∧ _))

section Fetch

variable {u : User} {addr : UInt32} {n : ℕ}

/-- The checks of `fetchint` and `argptr`: as `sz` is at most `KERNBASE`, the sum of an
address below `sz` and the value of a nonnegative `int` does not wrap around. -/
theorem add_le_of_check (hsz : u.sz.toNat ≤ kernBase) {size : UInt32}
    (hsize : size.toNat < 2 ^ 31) (h₁ : ¬ addr ≥ u.sz) (h₂ : ¬ addr + size > u.sz) :
    addr.toNat + size.toNat ≤ u.sz.toNat := by
  rw [ge_iff_le, UInt32.le_iff_toNat_le, Nat.not_le] at h₁
  rw [gt_iff_lt, UInt32.lt_iff_toNat_lt, Nat.not_lt, UInt32.toNat_add] at h₂
  unfold kernBase at hsz
  rwa [Nat.mod_eq_of_lt (by omega)] at h₂

theorem fetchint_safe (hsz : u.sz.toNat ≤ kernBase) (addr : UInt32) :
    Safe (Access.Inside u) (fetchint u addr) fun v =>
      addr.toNat + 4 ≤ u.sz.toNat ∧ v = u.word addr := by
  apply safe_ite
  · intro _
    exact safe_failure_bind
  · intro h
    obtain ⟨h₁, h₂⟩ := not_or.mp h
    have hle : addr.toNat + 4 ≤ u.sz.toNat :=
      add_le_of_check hsz (by decide : (4 : UInt32).toNat < 2 ^ 31) h₁ h₂
    refine safe_bind (safe_access hle) fun _ _ => ?_
    exact safe_pure ⟨hle, rfl⟩

/-- A string of `len` bytes and its final 0, all in `[0, sz)`. -/
def User.IsString (u : User) (x : UInt32 × ℕ) : Prop :=
  x.1.toNat + x.2 < u.sz.toNat ∧ u.mem (x.1 + UInt32.ofNat x.2) = 0 ∧
  ∀ k, k < x.2 → u.mem (x.1 + UInt32.ofNat k) ≠ 0

theorem fetchstrLoop_safe (hsz : u.sz.toNat ≤ kernBase) (fuel len : ℕ) {s : UInt32}
    (hs : s = addr + UInt32.ofNat len) (hn : s.toNat = addr.toNat + len)
    (hlen : ∀ k, k < len → u.mem (addr + UInt32.ofNat k) ≠ 0) :
    Safe (Access.Inside u) (fetchstrLoop u fuel s len) fun l => u.IsString (addr, l) := by
  induction fuel generalizing s len with
  | zero => exact safe_failure
  | succ fuel ih =>
      apply safe_ite
      · intro hlt
        rw [UInt32.lt_iff_toNat_lt] at hlt
        refine safe_bind (safe_access ?_) fun _ _ => safe_ite ?_ ?_
        · show s.toNat + 1 ≤ u.sz.toNat
          exact hlt
        · intro h0
          exact safe_pure ⟨hn ▸ hlt, hs ▸ h0, hlen⟩
        · intro h0
          apply ih
          · rw [hs, UInt32.add_assoc, UInt32.ofNat_add]
            rfl
          · have h1 : (s + 1).toNat = (s.toNat + 1) % 2 ^ 32 := UInt32.toNat_add ..
            unfold kernBase at hsz
            omega
          · intro k hk
            rcases Nat.lt_succ_iff_lt_or_eq.mp hk with hk | rfl
            · exact hlen k hk
            · rw [← hs]
              exact h0
      · intro _
        exact safe_failure

theorem fetchstr_safe (hsz : u.sz.toNat ≤ kernBase) (addr : UInt32) :
    Safe (Access.Inside u) (fetchstr u addr) u.IsString := by
  apply safe_ite
  · intro _
    exact safe_failure_bind
  · intro _
    have hloop := fetchstrLoop_safe hsz (u.sz.toNat - addr.toNat) 0
      (UInt32.add_zero addr).symm rfl nofun
    exact safe_bind hloop fun l hl => safe_pure hl

theorem argint_safe (hsz : u.sz.toNat ≤ kernBase) (n : ℕ) :
    Safe (Access.Inside u) (argint u n) fun v =>
      (u.argAddr n).toNat + 4 ≤ u.sz.toNat ∧ v = u.word (u.argAddr n) :=
  fetchint_safe hsz _

/-- The value of a nonnegative `int`. -/
theorem toInt_of_nonneg {v : UInt32} (h : ¬ toInt v < 0) :
    v.toNat < 2 ^ 31 ∧ toInt v = v.toNat := by
  have hlt := v.toNat_lt
  unfold toInt at h ⊢
  rw [Int.bmod_def] at h ⊢
  split_ifs at h ⊢ <;> omega

theorem argptr_safe (hsz : u.sz.toNat ≤ kernBase) (n : ℕ) (size : UInt32) :
    Safe (Access.Inside u) (argptr u n size) fun p =>
      0 ≤ toInt size ∧ p.toNat + toInt size ≤ u.sz.toNat := by
  refine safe_bind (argint_safe hsz n) fun i _ => safe_ite ?_ ?_
  · intro _
    exact safe_failure_bind
  · intro h
    obtain ⟨h₀, h₁, h₂⟩ := not_or.mp h |>.imp id not_or.mp
    obtain ⟨hlt, heq⟩ := toInt_of_nonneg h₀
    have hle := add_le_of_check hsz hlt h₁ h₂
    refine safe_pure ⟨Int.not_lt.mp h₀, ?_⟩
    rw [heq]
    exact_mod_cast hle

theorem argstr_safe (hsz : u.sz.toNat ≤ kernBase) (n : ℕ) :
    Safe (Access.Inside u) (argstr u n) u.IsString :=
  safe_bind (argint_safe hsz n) fun addr _ => fetchstr_safe hsz addr

theorem sysExecLoop_safe (hsz : u.sz.toNat ≤ kernBase) (uargv : UInt32) (fuel i : ℕ) :
    Safe (Access.Inside u) (sysExecLoop u uargv fuel i) fun args =>
      args.length < fuel ∧ ∀ a ∈ args, u.IsString a := by
  induction fuel generalizing i with
  | zero => exact safe_failure
  | succ fuel ih =>
      refine safe_bind (fetchint_safe hsz _) fun uarg _ => safe_ite ?_ ?_
      · intro _
        exact safe_pure ⟨Nat.zero_lt_succ _, nofun⟩
      · intro _
        refine safe_bind (fetchstr_safe hsz uarg) fun arg harg => ?_
        refine safe_bind (ih (i + 1)) fun args hargs => ?_
        refine safe_pure ⟨Nat.succ_lt_succ hargs.1, ?_⟩
        intro a ha
        rcases List.mem_cons.mp ha with rfl | ha
        · exact harg
        · exact hargs.2 a ha

theorem sysExec_safe (hsz : u.sz.toNat ≤ kernBase) :
    Safe (Access.Inside u) (sysExec u) fun x =>
      u.IsString x.1 ∧ x.2.length < maxArg ∧ ∀ a ∈ x.2, u.IsString a := by
  refine safe_bind (argstr_safe hsz 0) fun path hpath => ?_
  refine safe_bind (argint_safe hsz 1) fun uargv _ => ?_
  refine safe_bind (sysExecLoop_safe hsz uargv maxArg 0) fun args hargs => ?_
  exact safe_pure ⟨hpath, hargs⟩

end Fetch

section Tables

variable {u : User} {id : ℤ}

theorem lookup_safe {t : Table} (h : 0 ≤ id ∧ id < t.size) :
    Safe (Access.Inside u) (lookup u t id) fun _ => True :=
  safe_bind (safe_access h) fun _ _ => safe_pure trivial

theorem argfd_safe (hsz : u.sz.toNat ≤ kernBase) (n : ℕ) :
    Safe (Access.Inside u) (argfd u n) fun fd => 0 ≤ fd ∧ fd < 16 := by
  refine safe_bind (argint_safe hsz n) fun fd _ => safe_ite ?_ ?_
  · intro _
    exact safe_failure_bind
  · intro h
    have hfd : 0 ≤ toInt fd ∧ toInt fd < 16 := by omega
    refine safe_bind (lookup_safe hfd) fun f _ => safe_ite ?_ ?_
    · intro _
      exact safe_failure_bind
    · intro _
      exact safe_pure hfd

theorem kthreadJoin_safe (id : ℤ) :
    Safe (Access.Inside u) (kthreadJoin u id) fun _ => True := by
  apply safe_ite
  · intro _
    exact safe_failure_bind
  · intro h
    have hid : 0 ≤ id ∧ id < 16 := by omega
    refine safe_bind (lookup_safe hid) fun tid _ => safe_ite ?_ ?_
    · intro _
      exact safe_failure
    · intro _
      exact safe_pure trivial

theorem mutexCall_safe (id : ℤ) : Safe (Access.Inside u) (mutexCall u id) fun _ => True := by
  apply safe_ite
  · intro _
    exact safe_failure_bind
  · intro h
    have hid : 0 ≤ id ∧ id < 64 := by omega
    refine safe_bind (lookup_safe (t := .mutex) hid) fun allocated _ => safe_ite ?_ ?_
    · intro _
      exact safe_failure_bind
    · intro _
      refine safe_bind (lookup_safe (t := .mid) hid) fun mid _ => safe_ite ?_ ?_
      · intro _
        exact safe_failure
      · intro _
        exact safe_pure trivial

theorem mutexTid_safe (h : 0 ≤ id ∧ id < 64) :
    Safe (Access.Inside u) (mutexTid u id) fun _ => True :=
  safe_bind (lookup_safe (t := .mutex) h) fun _ _ => safe_pure trivial

end Tables

/-! ## §3  Every call -/

/-- The condition on the argument of `mutex_tid`, which the code does not look at. -/
def Call.IdOk (u : User) (c : Call) : Prop :=
  c = .mutexTid → 0 ≤ toInt (u.word (u.argAddr 0)) ∧ toInt (u.word (u.argAddr 0)) < 64

theorem Call.run_safe {u : User} (hsz : u.sz.toNat ≤ kernBase) {c : Call} (hc : c.IdOk u) :
    Safe (Access.Inside u) (c.run u) fun _ => True := by
  have hint := argint_safe hsz
  have hstr := argstr_safe hsz
  cases c with
  | kill => exact safe_bind (hint 0) fun _ _ => safe_pure trivial
  | sbrk => exact safe_bind (hint 0) fun _ _ => safe_pure trivial
  | sleep => exact safe_bind (hint 0) fun _ _ => safe_pure trivial
  | dup => exact safe_bind (argfd_safe hsz 0) fun _ _ => safe_pure trivial
  | close => exact safe_bind (argfd_safe hsz 0) fun _ _ => safe_pure trivial
  | read =>
      refine safe_bind (argfd_safe hsz 0) fun _ _ => safe_bind (hint 2) fun n _ => ?_
      exact safe_bind (argptr_safe hsz 1 n) fun _ _ => safe_pure trivial
  | write =>
      refine safe_bind (argfd_safe hsz 0) fun _ _ => safe_bind (hint 2) fun n _ => ?_
      exact safe_bind (argptr_safe hsz 1 n) fun _ _ => safe_pure trivial
  | fstat =>
      refine safe_bind (argfd_safe hsz 0) fun _ _ => ?_
      exact safe_bind (argptr_safe hsz 1 statSize) fun _ _ => safe_pure trivial
  | link =>
      exact safe_bind (hstr 0) fun _ _ => safe_bind (hstr 1) fun _ _ => safe_pure trivial
  | unlink => exact safe_bind (hstr 0) fun _ _ => safe_pure trivial
  | mkdir => exact safe_bind (hstr 0) fun _ _ => safe_pure trivial
  | chdir => exact safe_bind (hstr 0) fun _ _ => safe_pure trivial
  | «open» =>
      exact safe_bind (hstr 0) fun _ _ => safe_bind (hint 1) fun _ _ => safe_pure trivial
  | mknod =>
      refine safe_bind (hstr 0) fun _ _ => safe_bind (hint 1) fun _ _ => ?_
      exact safe_bind (hint 2) fun _ _ => safe_pure trivial
  | exec => exact safe_bind (sysExec_safe hsz) fun _ _ => safe_pure trivial
  | pipe => exact safe_bind (argptr_safe hsz 0 8) fun _ _ => safe_pure trivial
  | kthreadCreate =>
      exact safe_bind (hint 1) fun _ _ => safe_bind (hint 0) fun _ _ => safe_pure trivial
  | kthreadJoin => exact safe_bind (hint 0) fun v _ => kthreadJoin_safe (toInt v)
  | kthreadMutexDealloc => exact safe_bind (hint 0) fun v _ => mutexCall_safe (toInt v)
  | kthreadMutexLock => exact safe_bind (hint 0) fun v _ => mutexCall_safe (toInt v)
  | kthreadMutexUnlock => exact safe_bind (hint 0) fun v _ => mutexCall_safe (toInt v)
  | mutexTid =>
      refine safe_bind (hint 0) fun v hv => mutexTid_safe ?_
      rw [hv.2]
      exact hc rfl

/-- A process of one page that calls with the first argument `id` on its stack. -/
def caller (id : UInt8) : User where
  sz := 4096
  esp := 0
  mem addr := if addr < 4 ∨ 8 ≤ addr then 0 else id
  table _ _ := 0
  tid := 0

end Xv6.SyscallArgs
