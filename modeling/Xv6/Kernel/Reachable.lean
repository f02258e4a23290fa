import Xv6.Kernel.PreserveMutex
import Xv6.Kernel.PreserveSlot

/-!
# The invariant holds in every reachable state

`allocproc` finds a free process slot under `ptable.lock` but claims it after
releasing the lock, so two forks can claim one slot. `forkOk` excludes this: a
claim finds its slot still free. It is the only condition on the runs; a run
in which nobody forks meets it.

A step that panics may leave a state behind in which the kernel does not go
on, so the invariant is claimed of states without a panic.
-/

set_option linter.unusedSectionVars false

namespace Xv6.Kernel

variable {Cpu : Type} [DecidableEq Cpu] {s s' : Sys Cpu} {c : Cpu}
  {r : ThreadPtr}

/-- The thread whose next section an action executes. -/
def Sys.acting (s : Sys Cpu) : Act Cpu → Option ThreadPtr
  | .run c =>
      match s.cpu c with
      | .run r => some r
      | _ => none
  | _ => none

theorem Sys.acting_run (hr : s.cpu c = .run r) :
    s.acting (.run c) = some r := by
  simp [Sys.acting, hr]

theorem Sys.run_of_acting {a : Act Cpu} (h : s.acting a = some r) :
    ∃ c, s.cpu c = .run r := by
  unfold Sys.acting at h
  split at h
  case h_1 c =>
    split at h
    case h_1 y hy =>
      cases h
      exact ⟨c, hy⟩
    case h_2 => cases h
  case h_2 => cases h

/-- Conditions on the acting thread are decided by looking at that thread
alone. -/
instance (priority := high) (s : Sys Cpu) (a : Act Cpu) (P : ThreadPtr → Prop)
    [DecidablePred P] : Decidable (∀ r ∈ s.acting a, P r) :=
  match s.acting a with
  | none => isTrue nofun
  | some r => decidable_of_iff (P r) (by simp)

/-- `allocproc` claims a slot that is still free. -/
def forkOk (s : Sys Cpu) (a : Act Cpu) : Prop :=
  ∀ r ∈ s.acting a, ∀ q, (s.thread r).pc = .forkClaim q →
    (s.proc q).state = .UNUSED

instance (s : Sys Cpu) (a : Act Cpu) : Decidable (forkOk s a) := by
  unfold forkOk; infer_instance

/-! ## §1  The remaining sections -/

namespace Inv

variable (h : Inv s)
include h

theorem sleep (hr : s.cpu c = .run r) (hl : s.PtFree c) {ch : Chan}
    {k : Resume} {pc' : Pc} (hold : (s.thread r).pc.settled = true)
    (hnew : pc'.bare = true) (hk : pc'.holdsPt = true → k = .sleepHeld) :
    Inv (s.sleep c r ch k pc') := by
  rw [Sys.sleep_eq]
  refine h.leave_bare hr hl ?_ (.inl rfl) (.inl hold) hnew hk
  split <;> exact ⟨by decide, by decide⟩

theorem sleeps (hr : s.cpu c = .run r) (hl : s.PtFree c) {ch : Chan}
    {k : Resume} {pc pc' : Pc} (hpc : (s.thread r).pc = pc)
    (hs : Sleeps r.1 pc ch k pc') : Inv (s.sleep c r ch k pc') := by
  subst hpc
  generalize hpc : (s.thread r).pc = pc at hs
  cases hs
  case wait | waitLoop | joinLock | joinLoop =>
    exact h.sleep hr hl (by rw [hpc]; rfl) rfl fun _ => rfl
  case beginOp | acquiresleep | kern | loop =>
    exact h.sleep hr hl (by rw [hpc]; rfl) rfl nofun

theorem yields (hr : s.cpu c = .run r) (hl : s.ptlock = none) {pc pc' : Pc}
    (hpc : (s.thread r).pc = pc) (hy : Yields pc pc') : Inv (s.yield c r pc') := by
  rw [Sys.yield_eq]
  cases hy with
  | user =>
      exact h.leave_bare hr (.inl hl) ⟨by decide, by decide⟩ (.inr (.inl rfl))
        (.inl (by rw [hpc]; rfl)) rfl nofun
  | kernel hp =>
      subst hpc
      exact h.leave_same hr (.inl hl) hp

theorem exitLoop (hr : s.cpu c = .run r) (hl : s.PtFree c) {k : ℕ}
    (hold : (s.thread r).pc.settled = true) : Inv (s.exitLoop c r k) := by
  unfold Sys.exitLoop
  split
  · exact h.sleep hr hl hold rfl fun _ => rfl
  · exact (h.soft (Soft.setProc ⟨.inl rfl, id⟩ rfl)).gotoRelease hr hold rfl hl

theorem exitFiles (hr : s.cpu c = .run r) {k : ℕ}
    (hpc : (s.thread r).pc.settled = true) : Inv (s.exitFiles r k) := by
  refine h.goto hr hpc ?_
  rcases s.closing_cases r.1 k with ⟨fd, e⟩ | e <;> rw [e] <;> rfl

theorem exit (hr : s.cpu c = .run r) (hl : s.ptlock = none)
    (hpc : (s.thread r).pc = .exit) : Inv (s.exit c r) := by
  have hs : Soft s (s.exitMark r) := Soft.exitMark r
  refine (h.soft hs).exitLoop hr (.inl hl) ?_
  rw [(hs.thread r).pc, hpc]
  rfl

theorem exitFinal (hr : s.cpu c = .run r) (hl : s.ptlock = none)
    (hpc : (s.thread r).pc = .exitFinal) : Inv (s.exitFinal c r) := by
  have hs : Soft s (s.exitWake r.1) := Soft.exitWake r.1
  rw [Sys.exitFinal_eq]
  refine (h.soft hs).leave_bare ((congrFun hs.cpu c).trans hr) (.inl (hs.ptlock.trans hl))
    ⟨by decide, by decide⟩ (.inr (.inr rfl)) (.inl ?_) rfl nofun
  rw [(hs.thread r).pc, hpc]
  rfl

/-- The thread dies and goes on running. -/
theorem enterGap (hr : s.cpu c = .run r)
    (hold : (s.thread r).pc.settled = true) :
    Inv (s.setThread r fun t =>
      { t with state := .ZOMBIE, pc := .kthreadExitSched }) := by
  have hnb := h.not_blocked (Pc.mayBlock_of_settled hold)
  set s' := s.setThread r fun t =>
    { t with state := .ZOMBIE, pc := .kthreadExitSched } with hs'
  have hself : s'.thread r = { s.thread r with
      state := .ZOMBIE, pc := .kthreadExitSched } := s.setThread_self r _
  have hloc : Local s s' c r := .of_run h hr (fun x hx => s.setThread_ne r _ hx)
    (fun _ _ => rfl) (fun p => SoftProc.refl _) (.inl rfl) (.inl rfl)
  have hp' : s'.Present r := by simp [Sys.Present, hself]
  refine ⟨h.cpu.act hloc (.inl ⟨hr, ?_, .inr ?_, ?_, ?_⟩),
    h.slot.act hloc ⟨hp', ?_, ?_, ?_, ?_⟩,
    MutexInv.act h hloc hp' ⟨rfl, fun _ => rfl, ?_, ?_, ?_, ?_, ?_, ?_⟩⟩
  · rw [hself]
    exact h.cpu.context hr
  · simp [hself]
  · rw [hself]; rintro ⟨⟩
  · rw [hself]; rintro ⟨⟩
  · simp [hself]
  · rw [hself]
  · rw [hself]; trivial
  · rw [hself]
    exact .of_none rfl rfl
  · rw [hself]
  · rw [hself]
  · rw [hnb]; simp
  · exact fun i hi => absurd hi (Pc.ne_clear_of_settled hold i)
  · rintro i ⟨hb, _⟩
    rw [hself] at hb
    exact absurd (hnb.symm.trans hb) (by decide)
  · rw [hself]; trivial

theorem kthreadExit (hr : s.cpu c = .run r)
    (hpc : (s.thread r).pc = .kthreadExit) : Inv (s.kthreadExit r) := by
  have hs : Soft s (s.wakeup1 (.thread r)) := Soft.wakeup1 _
  have hold : ((s.wakeup1 (.thread r)).thread r).pc.settled = true := by
    rw [(hs.thread r).pc, hpc]
    rfl
  unfold Sys.kthreadExit
  simp only
  split
  · exact (h.soft hs).goto hr hold rfl
  · exact (h.soft hs).enterGap hr hold

theorem kthreadExitSched (hr : s.cpu c = .run r) (hl : s.ptlock = none)
    (hpc : (s.thread r).pc = .kthreadExitSched)
    (hs : (s.thread r).state ≠ .RUNNING) : Inv (s.kthreadExitSched c r) := by
  have hz : (s.thread r).state = .ZOMBIE := by
    rcases h.cpu.state hr with e | ⟨e, _⟩
    · exact absurd e hs
    · exact e
  rw [Sys.kthreadExitSched_eq s c r hs]
  exact h.leave_bare hr (.inl hl) ⟨by decide, by decide⟩ (.inr (.inr hz))
    (.inr hpc) rfl nofun

theorem kill (hr : s.cpu c = .run r) (hl : s.ptlock = none) {pid : ℤ}
    {p : ProcId} (hpc : (s.thread r).pc = .kill pid) :
    Inv (((s.setProc p fun x => { x with killed := true }).killWake p).ret r 0) := by
  have hs := (Soft.killed (s := s) p).trans (Soft.killWake p)
  refine (h.soft hs).ret ((congrFun hs.cpu c).trans hr) ?_ (.inl (hs.ptlock.trans hl)) 0
  rw [(hs.thread r).pc, hpc]
  rfl

theorem execKill (hr : s.cpu c = .run r) (hpc : (s.thread r).pc = .execKill) :
    Inv (s.execKill r) := by
  have hs : Soft s (s.execMark r) := Soft.execMark r
  refine (h.soft hs).goto hr ?_ rfl
  rw [(hs.thread r).pc, hpc]
  rfl

theorem fault (hr : s.cpu c = .run r) (hpc : (s.thread r).pc = .user) :
    Inv ((s.setProc r.1 fun x => { x with killed := true }).goto r
      (.checkThread .user)) :=
  (h.soft (Soft.killed r.1)).goto hr
    (show (s.thread r).pc.settled = true by rw [hpc]; rfl) rfl

theorem returns (hr : s.cpu c = .run r) (hl : s.PtFree c) (v : ℤ)
    (hpc : (s.thread r).pc.returns = true) : Inv (s.ret r v) := by
  refine h.ret hr ?_ hl v
  cases hp : (s.thread r).pc <;> rw [hp] at hpc <;> first | rfl | cases hpc

theorem logWrite (l : Fs.Log) : Inv { s with log := l } :=
  h.soft ⟨fun _ => SoftThread.refl _, fun _ => SoftProc.refl _, fun _ => rfl,
    rfl, rfl, rfl, rfl⟩

/-- The thread changes its own slot in one update and goes on in file system
code. -/
theorem setFs (hr : s.cpu c = .run r) {f : Thread → Thread} {pc' : Pc} {b : Bool}
    {ls : List ℕ} (hf : f (s.thread r) =
      { s.thread r with pc := pc', inop := b, locks := ls })
    (hold : (s.thread r).pc.settled = true) (hnew : pc'.plain = true) (l : Fs.Log)
    (k : ℕ → SleepLock) :
    Inv { s.setThread r f with log := l, sleeplock := k } :=
  h.goOnFs hr ((s.setThread_self r f).trans hf) (fun _ hx => s.setThread_ne r f hx)
    hold hnew rfl rfl rfl rfl rfl

theorem beginOp (hr : s.cpu c = .run r) {k : After}
    (hpc : (s.thread r).pc = .beginOp k) (hw : s.log.mustWait = false) :
    Inv (s.beginOp c r k) := by
  rw [Sys.beginOp, if_neg (by simp [hw])]
  exact h.setFs hr rfl (by rw [hpc]; rfl) rfl _ s.sleeplock

theorem takeSleep (hr : s.cpu c = .run r) {l : ℕ} {k : After}
    (hpc : (s.thread r).pc = .acquiresleep l k) : Inv (s.takeSleep r l k) :=
  h.setFs hr rfl (by rw [hpc]; rfl) rfl s.log _

/-- `inop` or `locks` change where the thread is. -/
theorem setHistory (hr : s.cpu c = .run r) {k : After}
    (hpc : (s.thread r).pc = .kern k) {f : Thread → Thread} {b : Bool}
    {ls : List ℕ} (hf : f (s.thread r) =
      { s.thread r with inop := b, locks := ls }) (l : Fs.Log)
    (m : ℕ → SleepLock) :
    Inv { s.setThread r f with log := l, sleeplock := m } :=
  h.setFs hr hf (by rw [hpc]; rfl) (by rw [hpc]; rfl) l m

theorem endOp (hr : s.cpu c = .run r) {k : After}
    (hpc : (s.thread r).pc = .kern k) (hc : s.log.committing = false) :
    Inv (s.endOp r k) := by
  have h₁ := h.setHistory hr hpc (f := fun t => { t with inop := false }) rfl
    s.log.leave s.sleeplock
  rw [Sys.endOp, if_neg (by simp [hc])]
  simp only
  split
  · refine h₁.goto hr ?_ rfl
    simp [hpc, Pc.settled]
  · exact h₁.soft (Soft.wakeup1 _)

theorem endCommit (hr : s.cpu c = .run r) {k : After}
    (hpc : (s.thread r).pc = .kern (.commit k)) : Inv (s.endCommit r k) := by
  have hs : Soft { s with log := s.log.committed }
    (({ s with log := s.log.committed } : Sys Cpu).wakeup1 .log) := Soft.wakeup1 _
  refine ((h.logWrite _).soft hs).goto hr ?_ rfl
  rw [(hs.thread r).pc]
  exact (congrArg Pc.settled hpc).trans rfl

theorem releasesleep (hr : s.cpu c = .run r) {k : After} {l : ℕ}
    (hpc : (s.thread r).pc = .kern k) : Inv (s.releasesleep r l) :=
  (h.setHistory hr hpc (f := fun t => { t with locks := t.locks.erase l }) rfl
    s.log _).soft (Soft.wakeup1 _)

end Inv

/-! ## §2  Every step -/

theorem Section.inv {a : Act Cpu} (h : Inv s) (hr : s.cpu c = .run r)
    (hs : Section s c r a s') (hf : forkOk s a) (hp : s'.panicked = none) :
    Inv s' := by
  cases hs with
  | halt hn => exact absurd hp hn
  | move hm =>
      exact h.goto hr (Pc.settled_of_plain hm.old) hm.new
  | fault hpc => exact h.fault hr hpc
  | ret v hpc hl => exact h.returns hr hl v hpc
  | sleep hpc hsl hl => exact h.sleeps hr hl hpc hsl
  | yield hpc hy hl _ => exact h.yields hr hl hpc hy
  | wakeup n _ _ => exact h.soft (Soft.wakeup1 _)
  | logWrite b _ _ _ => exact h.logWrite _
  | beginOp hpc _ hw => exact h.beginOp hr hpc hw
  | endOp hpc _ _ hc => exact h.endOp hr hpc hc
  | endCommit hpc => exact h.endCommit hr hpc
  | takeSleep hpc _ => exact h.takeSleep hr hpc
  | releasesleep l hpc _ _ => exact h.releasesleep hr hpc
  | setFile fd b _ => exact h.soft (.setFile _ fd b)
  | exitFile hpc _ _ =>
      exact (h.soft (.setFile _ _ false)).exitFiles hr (congrArg Pc.settled hpc)
  | exitClose hpc => exact h.exitFiles hr (by rw [hpc]; rfl)
  | exit hpc hl => exact h.exit hr hl hpc
  | exitWait hpc hl => exact h.exitLoop hr (.inr hl) (by rw [hpc]; rfl)
  | exitFinal hpc hl => exact h.exitFinal hr hl hpc
  | kthreadExit hpc _ => exact h.kthreadExit hr hpc
  | kthreadExitSched hpc hl hs => exact h.kthreadExitSched hr hl hpc hs
  | join hpc hl hz => exact h.join hr hpc hl hz
  | wait hpc hl hq => exact h.wait hr hpc hl hq _
  | execWait hpc _ => exact h.execWait hr hpc
  | create hpc _ hu => exact h.create hr hpc hu
  | createStack ok hpc => exact h.createStack hr hpc ok
  | createPublish hpc _ => exact h.createPublish hr hpc
  | kill hpc hl _ => exact h.kill hr hl hpc
  | execKill hpc _ => exact h.execKill hr hpc
  | execClear hpc _ => exact h.execClear hr hpc
  | forkClaim hpc => exact h.forkClaim hr hpc (hf r (Sys.acting_run hr) _ hpc)
  | forkThread hpc _ => exact h.forkThread hr hpc
  | forkStack ok hpc => exact h.forkStack hr hpc ok
  | forkFail hpc => exact h.forkFail hr hpc
  | forkCopied hpc => exact (h.soft (.copyFiles _ _)).forkCopied hr hpc _
  | forkUncopied hpc => exact h.forkUncopied hr hpc
  | forkThreadRunnable hpc _ => exact h.forkThreadRunnable hr hpc
  | forkRunnable hpc hl => exact h.forkRunnable hr hpc hl
  | mutexAlloc hpc hl hi => exact h.mutexAlloc hr hpc hl hi
  | mutexAllocMid hpc _ => exact h.mutexAllocMid hr hpc
  | mutexEnter hpc he hl hi => exact h.mutexEnter hr hpc he hl hi
  | moveMt hpc hm => exact h.gotoMovesMt hr hpc hm
  | refuseMt v hpc => exact h.refuseMt hr v hpc
  | mutexDeallocLocked hpc hi => exact h.mutexDeallocLocked hr hpc hi
  | mutexDeallocClear hpc _ => exact h.mutexDeallocClear hr hpc
  | mutexLockBlock hpc _ => exact h.mutexLockBlock hr hpc
  | mutexLockSleep hpc hl => exact h.mutexLockSleep hr hpc hl
  | mutexLockWoken hpc hl => exact h.mutexLockWoken hr hpc hl
  | mutexLockTake hpc => exact h.mutexLockTake hr hpc
  | handOff hpc _ hu => exact h.handOff hr hpc hu
  | mutexUnlockFree hpc => exact h.mutexUnlockFree hr hpc

theorem Change.inv {a : Act Cpu} (h : Inv s) (hs : Change s a s')
    (hf : forkOk s a) (hp : s'.panicked = none) : Inv s' := by
  cases hs with
  | wakeup n _ => exact h.soft (Soft.wakeup1 _)
  | sched hc => exact h.scheduler hc
  | run hr hs => exact hs.inv h hr hf hp
  | junk _ => cases hp

/-! ## §3  Every run -/

theorem Initial.free_or_fresh (h : Initial s) (x : ThreadPtr) :
    (s.thread x).Free ∨ (s.thread x).Fresh x.2 := by
  rcases h.proc x.1 with ⟨_, hp⟩ | ⟨_, hp⟩
  · exact .inl (hp x.2)
  · exact hp x.2

theorem Initial.fresh (h : Initial s) {x : ThreadPtr} (hx : s.Present x) :
    (s.thread x).Fresh x.2 :=
  (h.free_or_fresh x).resolve_left fun e => hx e.state

theorem Initial.not_blocked (h : Initial s) (x : ThreadPtr) :
    (s.thread x).blocked = false := by
  rcases h.free_or_fresh x with e | e
  · exact e.blocked
  · exact e.blocked

theorem Initial.inv (h : Initial s) : Inv s := by
  have hpc : ∀ {x}, s.Present x → (s.thread x).pc = .user := fun hx => (h.fresh hx).pc
  have hidle : ∀ {c st}, s.cpu c = st → st = .idle := fun e => e.symm.trans (h.cpu _)
  refine ⟨⟨fun e => ?_, fun e => ?_, fun e => ?_, fun e => ?_, fun hx e => ?_,
      fun e => ?_, fun e => ?_, fun hx _ e => ?_⟩,
    ⟨fun hx => (h.fresh hx).tid, fun {x} e => ?_, fun {p} hp t _ => ?_,
      fun {p} hp => ?_, fun hx => ?_, fun hx _ e => ?_, fun hx _ e => ?_⟩,
    ⟨fun {p i} e => ?_, fun {p i} e => ?_, fun {i} e => ?_, fun hx e => ?_,
      fun {x} e => ?_, fun hx => ?_⟩⟩
  · cases hidle e
  · cases hidle e
  · cases hidle e
  · cases hidle e
  · rw [hpc hx] at e
    cases e
  · cases hidle e
  · cases hidle e
  · rw [hpc hx] at e
    cases e
  · exact hpc (by simp [Sys.Present, e])
  · rcases h.proc p with ⟨_, hf⟩ | ⟨hr, _⟩
    · exact (hf t).state
    · rw [hr] at hp
      cases hp
  · rcases hp with hp | hp
    · rcases h.proc p with ⟨hf, _⟩ | ⟨hr, _⟩
      · exact hf.parent
      · rw [hr] at hp
        cases hp
    · rcases h.proc p with ⟨hf, _⟩ | ⟨hr, _⟩
      · exact hf.parent
      · rw [hr] at hp
        cases hp
  · rw [hpc hx]
    trivial
  · rw [hpc hx] at e
    cases e
  · rw [hpc hx] at e
    cases e
  · rw [h.mid] at e
    cases e
  · rw [h.mid] at e
    cases e
  · rw [h.mutex] at e
    cases e
  · rw [(h.fresh hx).holds] at e
    exact absurd e (Finset.notMem_empty _)
  · rw [h.not_blocked] at e
    cases e
  · rw [hpc hx]
    trivial

/-- The invariant, for every run whose forks claim free slots. -/
theorem inv_of_reach {G : Sys Cpu → Act Cpu → Prop}
    (hG : ∀ s a, G s a → forkOk s a) (h : (kernel Cpu).Reach G s)
    (hp : s.panicked = none) : Inv s := by
  refine Lib.System.Reach.invariant (I := fun s => s.panicked = none → Inv s)
    (fun s hi _ => Initial.inv hi) (fun s a s' hI hg hs hp' => ?_) h hp
  obtain ⟨hn, hc⟩ := step_change hs
  exact hc.inv (hI hn) (hG s a hg) hp'

/-- The invariant rule for what holds on top of `Inv`. -/
theorem invariant_of_reach {G : Sys Cpu → Act Cpu → Prop} {I : Sys Cpu → Prop}
    (hG : ∀ s a, G s a → forkOk s a) (h0 : ∀ s, Initial s → I s)
    (hstep : ∀ s a s', Inv s → I s → G s a → Change s a s' →
      s'.panicked = none → I s')
    (h : (kernel Cpu).Reach G s) (hp : s.panicked = none) : I s := by
  refine Lib.System.Reach.invariant_of (I := fun s => s.panicked = none → I s)
    (J := fun s => s.panicked = none → Inv s) (fun s h => inv_of_reach hG h)
    (fun s hi _ => h0 s hi) (fun s a s' hJ hI hg hs hp' => ?_) h hp
  obtain ⟨hn, hc⟩ := step_change hs
  exact hstep s a s' (hJ hn) (hI hn) hg hc hp'

/-- The same for a state and a history. -/
theorem history_of_reach {η : Type} {start : Sys Cpu → η}
    {record : Sys Cpu → Act Cpu → Sys Cpu → η → η} {x : Sys Cpu × η}
    {G : Sys Cpu → Act Cpu → Prop} {I : Sys Cpu → η → Prop}
    (hG : ∀ s a, G s a → forkOk s a) (h0 : ∀ s, Initial s → I s (start s))
    (hstep : ∀ s a s' k, Inv s → I s k → G s a → step s a = some s' →
      s'.panicked = none → I s' (record s a s' k))
    (h : ((kernel Cpu).withHistory start record).Reach (fun x a => G x.1 a) x)
    (hp : x.1.panicked = none) : I x.1 x.2 := by
  refine Lib.System.Reach.history_invariant (I := fun s k => s.panicked = none → I s k)
    (J := fun s => s.panicked = none → Inv s) (fun s h => inv_of_reach hG h)
    (fun s hi _ => h0 s hi) (fun s a s' k hJ hI hg hs hp' => ?_) h hp
  obtain ⟨hn, _⟩ := step_change hs
  exact hstep s a s' k (hJ hn) (hI hn) hg hs hp'

end Xv6.Kernel
