import Mathlib.Data.List.Nodup
import Mathlib.Logic.Function.Basic
import Xv6.Lib.Transition

/-!
# The disk driver

`ide.c` keeps the buffers to be read or written in `idequeue`, and the controller works on
the first of them. A thread that calls `iderw` appends its buffer and sleeps until the flags
say that the buffer and the disk agree. The interrupt handler takes the first buffer off the
queue, wakes its thread and starts the next one.

Each stretch under `idelock` is one step. Between them other threads lock, change and unlock
buffers, and a thread in `iderw` may be woken by `kill`, or ended by a sibling's `exit`. The
controller interrupts when its command is over, with or without an error.
-/

set_option linter.unusedSectionVars false

namespace Xv6.Ide

/-! ## §1  The driver -/

inductive Panic
  | notLocked
  | nothingToDo
  | noDisk1
  | blockno
  deriving DecidableEq

def Panic.msg : Panic → String
  | .notLocked => "iderw: buf not locked"
  | .nothingToDo => "iderw: nothing to do"
  | .noDisk1 => "iderw: ide disk 1 not present"
  | .blockno => "incorrect blockno"

def FSSIZE : ℕ := 1000

variable {T B α : Type}

/-- `struct buf`, with `B_VALID` and `B_DIRTY` apart. -/
structure Buf (α : Type) where
  valid : Bool
  dirty : Bool
  dev : ℕ
  blockno : ℕ
  data : α

/-- `(b->flags & (B_VALID|B_DIRTY)) == B_VALID`. -/
def Buf.synced (b : Buf α) : Bool := b.valid && !b.dirty

/-- With the data `v`, `b->flags |= B_VALID` and `b->flags &= ~B_DIRTY`. -/
def Buf.filled (b : Buf α) (v : α) : Buf α :=
  { b with data := v, valid := true, dirty := false }

/-- A drive and a sector of it. A block is one sector. -/
abbrev Sector := ℕ × ℕ

def Buf.sector (b : Buf α) : Sector := (b.dev % 2, b.blockno)

/-- What the controller has been told: a sector, and for a write the data. -/
structure Command (α : Type) where
  sector : Sector
  write : Option α

def Buf.command (b : Buf α) : Command α :=
  ⟨b.sector, if b.dirty then some b.data else none⟩

def Command.exec (c : Command α) (disk : Sector → α) : Sector → α :=
  match c.write with
  | some x => Function.update disk c.sector x
  | none => disk

/-- Where a thread is in `iderw`. -/
inductive Place (B : Type)
  | out
  | asleep (b : B)
  | woken (b : B)
  | zombie (b : B)
  deriving DecidableEq

/-- The buffer that a thread in `iderw` has asked for. -/
def Place.buf : Place B → Option B
  | .out => none
  | .asleep b | .woken b | .zombie b => some b

structure Driver (T B α : Type) where
  buf : B → Buf α
  /-- The thread that has `b->lock`. -/
  lock : B → Option T
  idequeue : List B
  havedisk1 : Bool
  active : Option (Command α)
  disk : Sector → α
  place : T → Place B
  panicked : Option Panic

variable [DecidableEq T] [DecidableEq B] {pid : T → ℕ}
  {s s' : Driver T B α} {t t' : T} {b b' : B} {rest : List B}

namespace Driver

/-- Locks and buffers change outside of the driver. -/
def change (s : Driver T B α) (b : B) (o : Option T) (x : Buf α) : Driver T B α :=
  { s with lock := Function.update s.lock b o, buf := Function.update s.buf b x }

def move (s : Driver T B α) (t : T) (p : Place B) : Driver T B α :=
  { s with place := Function.update s.place t p }

/-- `holdingsleep(&b->lock)` compares processes. -/
def holdingsleep (pid : T → ℕ) (s : Driver T B α) (t : T) (b : B) : Bool :=
  (s.lock b).any fun o => pid o == pid t

def idestart (s : Driver T B α) (b : B) : Driver T B α :=
  if FSSIZE ≤ (s.buf b).blockno then { s with panicked := some .blockno }
  else { s with active := some (s.buf b).command }

/-- The test of the `while` loop of `iderw`. -/
def await (s : Driver T B α) (t : T) (b : B) : Driver T B α :=
  s.move t (if (s.buf b).synced then .out else .asleep b)

/-- `iderw`, up to the `sleep`. -/
def iderw (pid : T → ℕ) (s : Driver T B α) (t : T) (b : B) : Driver T B α :=
  if !s.holdingsleep pid t b then { s with panicked := some .notLocked }
  else if (s.buf b).synced then { s with panicked := some .nothingToDo }
  else if (s.buf b).dev ≠ 0 ∧ s.havedisk1 = false then { s with panicked := some .noDisk1 }
  else
    -- The walk along `qnext` ends at the last buffer.
    let s := { s with idequeue := s.idequeue ++ [b] }
    let s := if s.idequeue.head? = some b then s.idestart b else s
    s.await t b

def wakeup (s : Driver T B α) (b : B) : Driver T B α :=
  { s with place := fun t => if s.place t = .asleep b then .woken b else s.place t }

/-- `ideintr`, when the controller is done with its command and `idewait(1)` says `ok`. -/
def ideintr (s : Driver T B α) (ok : Bool) : Driver T B α :=
  match s.idequeue with
  | [] => s
  | b :: rest =>
      let x := s.buf b
      let read := s.active.elim x.data fun c => s.disk c.sector
      let s := { s with
        disk := if ok then s.active.elim s.disk fun c => c.exec s.disk else s.disk
        idequeue := rest
        active := none
        buf := Function.update s.buf b (x.filled (if !x.dirty && ok then read else x.data)) }
      let s := s.wakeup b
      match rest with
      | [] => s
      | b' :: _ => s.idestart b'

end Driver

inductive Act (T B α : Type)
  /-- `acquiresleep` and `releasesleep`, and `bget` or the thread with the lock changes `b`. -/
  | client (t : T) (b : B) (lock : Bool) (x : Buf α)
  | iderw (t : T) (b : B)
  | ideintr (ok : Bool)
  | kill (t : T)
  | exit (t : T)
  | resume (t : T)

def step (pid : T → ℕ) (s : Driver T B α) (a : Act T B α) : Option (Driver T B α) :=
  if s.panicked ≠ none then none
  else match a with
    | .client t b lock x =>
        if s.place t = .out ∧ (s.lock b = none ∨ s.lock b = some t) then
          some (s.change b (if lock then some t else none) x) else none
    | .iderw t b => if s.place t = .out then some (s.iderw pid t b) else none
    | .ideintr ok => some (s.ideintr ok)
    | .kill t =>
        match s.place t with
        | .asleep b => some (s.move t (.woken b))
        | _ => none
    | .exit t => (s.place t).buf.map fun b => s.move t (.zombie b)
    -- `sleep` returns, and the flags are tested again.
    | .resume t =>
        match s.place t with
        | .woken b => some (s.await t b)
        | _ => none

/-- No thread is in the driver. -/
structure Idle (s : Driver T B α) : Prop where
  idequeue : s.idequeue = []
  active : s.active = none
  place : ∀ t, s.place t = .out
  panicked : s.panicked = none

def driver (pid : T → ℕ) : Lib.System (Driver T B α) (Act T B α) := ⟨Idle, step pid⟩

/-- `iderw` is called as `bread` and `bwrite` call it: by the thread with the lock, for a buffer
that is to be read or written, on a disk that is there. -/
def called (s : Driver T B α) : Act T B α → Prop
  | .iderw t b => s.lock b = some t ∧ (s.buf b).synced = false ∧
      ((s.buf b).dev ≠ 0 → s.havedisk1 = true) ∧ (s.buf b).blockno < FSSIZE
  | _ => True

/-! ## §2  The invariant -/

/-- A thread `t` that has asked for `b` has it locked, and sleeps only while it is queued: until
the buffer and the disk agree. -/
structure Waiting (s : Driver T B α) (t : T) (b : B) : Prop where
  lock : s.lock b = some t
  queued : b ∈ s.idequeue ↔ (s.buf b).synced = false
  asleep : s.place t = .asleep b → b ∈ s.idequeue

structure Inv (s : Driver T B α) : Prop where
  panicked : s.panicked = none
  nodup : s.idequeue.Nodup
  waiting : ∀ {t b}, (s.place t).buf = some b → Waiting s t b
  queued : ∀ {b}, b ∈ s.idequeue → (s.buf b).blockno < FSSIZE ∧ ∃ t, (s.place t).buf = some b
  active : s.active = s.idequeue.head?.map fun b => (s.buf b).command

/-- The commands still to be done. -/
def Driver.commands (s : Driver T B α) : List (Command α) :=
  s.idequeue.map fun b => (s.buf b).command

/-- No thread in the driver has asked for the buffer. -/
def Driver.Apart (s : Driver T B α) (b : B) : Prop := ∀ t, (s.place t).buf ≠ some b

/-- What is idle, or locked by a thread outside of the driver, is apart. -/
theorem Inv.apart (h : Inv s) (ht : s.place t = .out) (hb : s.lock b = none ∨ s.lock b = some t) :
    s.Apart b := by
  intro t' hp
  have ho := (h.waiting hp).lock
  rcases hb with hb | hb
  · rw [hb] at ho
    cases ho
  · rw [hb] at ho
    obtain rfl := Option.some.inj ho
    rw [ht] at hp
    cases hp

theorem Inv.ne (h : Inv s) (hb : s.Apart b) (hm : b' ∈ s.idequeue) : b' ≠ b := by
  rintro rfl
  obtain ⟨t, hp⟩ := (h.queued hm).2
  exact hb t hp

/-- Locks and buffers that are apart may change. -/
theorem Inv.change (h : Inv s) (hb : s.Apart b) (o : Option T) (x : Buf α) :
    Inv (s.change b o x) := by
  have hbuf : ∀ {b'}, b' ≠ b → (s.change b o x).buf b' = s.buf b' := fun hne =>
    Function.update_of_ne hne _ s.buf
  refine ⟨h.panicked, h.nodup, fun {t b'} hp => ?_, fun hm => ?_, ?_⟩
  · have hne : b' ≠ b := fun he => hb t (he ▸ hp)
    have hw := h.waiting hp
    refine ⟨(Function.update_of_ne hne _ s.lock).trans hw.lock, ?_, hw.asleep⟩
    rw [hbuf hne]
    exact hw.queued
  · rw [hbuf (h.ne hb hm)]
    exact h.queued hm
  · refine h.active.trans (Option.map_congr fun b' hm => ?_)
    rw [hbuf (h.ne hb (List.mem_of_mem_head? hm))]

theorem Inv.commands_change (h : Inv s) (hb : s.Apart b) (o : Option T) (x : Buf α) :
    (s.change b o x).commands = s.commands :=
  List.map_congr_left fun _ hm =>
    congrArg Buf.command (Function.update_of_ne (h.ne hb hm) _ s.buf)

/-- A thread in the driver may move on: to sleep only while its buffer is queued, out of the
driver only once it is not. -/
structure Moves (s : Driver T B α) (t : T) (p : Place B) : Prop where
  keeps : ∀ b, p.buf = some b → (s.place t).buf = some b
  stays : ∀ b ∈ s.idequeue, (s.place t).buf = some b → p.buf = some b
  sleeps : ∀ b, p = .asleep b → b ∈ s.idequeue

theorem Moves.awake {p : Place B} (hp : p.buf = (s.place t).buf) (hs : ∀ b, p ≠ .asleep b) :
    Moves s t p :=
  ⟨fun _ he => hp.symm.trans he, fun _ _ he => hp.trans he, fun b he => absurd he (hs b)⟩

theorem Inv.move (h : Inv s) {p : Place B} (hm : Moves s t p) : Inv (s.move t p) := by
  have hself : (s.move t p).place t = p := Function.update_self t _ s.place
  have hne : ∀ {t'}, t' ≠ t → (s.move t p).place t' = s.place t' := fun hne =>
    Function.update_of_ne hne _ s.place
  refine ⟨h.panicked, h.nodup, fun {t' b} hp => ?_, fun {b} hb => ⟨(h.queued hb).1, ?_⟩, h.active⟩
  · by_cases he : t' = t
    · rw [he, hself] at hp
      have hw := h.waiting (hm.keeps b hp)
      exact ⟨he ▸ hw.lock, hw.queued, fun hs => hm.sleeps b (hself.symm.trans (he ▸ hs))⟩
    · rw [hne he] at hp
      have hw := h.waiting hp
      exact ⟨hw.lock, hw.queued, fun hs => hw.asleep ((hne he).symm.trans hs)⟩
  · obtain ⟨t', hp⟩ := (h.queued hb).2
    by_cases he : t' = t
    · exact ⟨t, (congrArg Place.buf hself).trans (hm.stays b hb (he ▸ hp))⟩
    · exact ⟨t', (congrArg Place.buf (hne he)).trans hp⟩

/-- A thread that has been woken leaves when its buffer and the disk agree. -/
theorem Inv.moves_await (h : Inv s) (hp : s.place t = .woken b) :
    Moves s t (if (s.buf b).synced then .out else .asleep b) := by
  have hbuf : (s.place t).buf = some b := congrArg Place.buf hp
  have hw := (h.waiting hbuf).queued
  cases hb : (s.buf b).synced with
  | false =>
      refine ⟨fun _ he => hbuf.trans he, fun _ _ he => hbuf.symm.trans he, fun b' he => ?_⟩
      cases he
      exact hw.mpr hb
  | true =>
      refine ⟨by simp [Place.buf], fun b' hm he => ?_, by simp⟩
      obtain rfl := Option.some.inj (hbuf.symm.trans he)
      rw [hw.mp hm] at hb
      cases hb

/-! ## §3  A request and its completion -/

/-- What a request that is in order does. -/
def Driver.enqueue (s : Driver T B α) (t : T) (b : B) : Driver T B α :=
  { s with
    idequeue := s.idequeue ++ [b]
    active := (s.idequeue ++ [b]).head?.map fun b => (s.buf b).command
    place := Function.update s.place t (.asleep b) }

theorem Inv.iderw_eq (h : Inv s) (ht : s.place t = .out) (hc : called s (.iderw t b)) :
    s.iderw pid t b = s.enqueue t b := by
  obtain ⟨hl, hs, hd, hn⟩ := hc
  have hh : s.holdingsleep pid t b = true := by
    rw [Driver.holdingsleep, hl, Option.any_some, beq_self_eq_true]
  have hdisk : ¬ ((s.buf b).dev ≠ 0 ∧ s.havedisk1 = false) := fun hx => by
    rw [hd hx.1] at hx
    cases hx.2
  rw [Driver.iderw, hh, hs, if_neg hdisk]
  cases hq : s.idequeue with
  | nil =>
      simp [Driver.idestart, Driver.await, Driver.move, Driver.enqueue, hs, hq, Nat.not_le.mpr hn]
  | cons b₀ rest =>
      have hne : b₀ ≠ b := h.ne (h.apart ht (.inr hl)) (hq ▸ List.mem_cons_self ..)
      have ha := h.active
      rw [hq] at ha
      simp [Driver.await, Driver.move, Driver.enqueue, hs, hq, ha, hne]

theorem Inv.enqueue (h : Inv s) (ht : s.place t = .out) (hc : called s (.iderw t b)) :
    Inv (s.enqueue t b) := by
  obtain ⟨hl, hs, _, hn⟩ := hc
  have hb := h.apart ht (.inr hl)
  have hself : (s.enqueue t b).place t = .asleep b := Function.update_self t _ s.place
  have hne : ∀ {t'}, t' ≠ t → (s.enqueue t b).place t' = s.place t' := fun hne =>
    Function.update_of_ne hne _ s.place
  have hmem : ∀ {b'}, b' ∈ (s.enqueue t b).idequeue ↔ b' ∈ s.idequeue ∨ b' = b := by
    simp [Driver.enqueue]
  refine ⟨h.panicked, ?_, fun {t' b'} hp => ?_, fun {b'} hm => ?_, rfl⟩
  · exact List.nodup_append.mpr ⟨h.nodup, List.nodup_singleton b, by simpa using fun _ => h.ne hb⟩
  · by_cases he : t' = t
    · rw [he, hself] at hp
      obtain rfl := Option.some.inj hp
      have hm := hmem.mpr (.inr rfl)
      exact ⟨he ▸ hl, iff_of_true hm hs, fun _ => hm⟩
    · rw [hne he] at hp
      have hw := h.waiting hp
      refine ⟨hw.lock, ?_, fun hs => hmem.mpr (.inl (hw.asleep ((hne he).symm.trans hs)))⟩
      rw [hmem, or_iff_left fun hb' : b' = b => hb t' (hb' ▸ hp)]
      exact hw.queued
  · rcases hmem.mp hm with hm | rfl
    · obtain ⟨hn, t', hp⟩ := h.queued hm
      have ht' : t' ≠ t := fun he => by
        rw [he, ht] at hp
        cases hp
      exact ⟨hn, t', (hne ht').symm ▸ hp⟩
    · exact ⟨hn, t, congrArg Place.buf hself⟩

/-- What an interrupt does to the first buffer of the queue. -/
def Driver.complete (s : Driver T B α) (b : B) (rest : List B) (ok : Bool) : Driver T B α :=
  { s.wakeup b with
    disk := if ok then (s.buf b).command.exec s.disk else s.disk
    idequeue := rest
    active := rest.head?.map fun b => (s.buf b).command
    buf := Function.update s.buf b ((s.buf b).filled
      (if !(s.buf b).dirty && ok then s.disk (s.buf b).sector else (s.buf b).data)) }

theorem Inv.mem_rest (h : Inv s) (hq : s.idequeue = b :: rest) :
    b' ∈ rest ↔ b' ∈ s.idequeue ∧ b' ≠ b := by
  have hb := (List.nodup_cons.mp (hq ▸ h.nodup)).1
  rw [hq, List.mem_cons]
  exact ⟨fun hm => ⟨.inr hm, ne_of_mem_of_not_mem hm hb⟩, fun hm => hm.1.resolve_left hm.2⟩

theorem Driver.complete_buf (ok : Bool) (hne : b' ≠ b) :
    (s.complete b rest ok).buf b' = s.buf b' :=
  Function.update_of_ne hne _ s.buf

theorem Buf.read_exec {x : Buf α} (hd : x.dirty = false) (disk : Sector → α) :
    x.command.exec disk = disk := by
  rw [Command.exec, Buf.command, hd]
  rfl

theorem Inv.ideintr_eq (h : Inv s) (hq : s.idequeue = b :: rest) (ok : Bool) :
    s.ideintr ok = s.complete b rest ok := by
  have ha : s.active = some (s.buf b).command := by
    rw [h.active, hq]
    rfl
  rw [Driver.ideintr, hq, ha]
  cases rest with
  | nil => rfl
  | cons b' rest =>
      obtain ⟨hm, hne⟩ := (h.mem_rest hq).mp (List.mem_cons_self ..)
      simp only [Driver.idestart, Driver.wakeup, Function.update_of_ne hne,
        if_neg (Nat.not_le.mpr (h.queued hm).1)]
      rfl

theorem Driver.wakeup_buf (s : Driver T B α) (b : B) (t : T) :
    ((s.wakeup b).place t).buf = (s.place t).buf := by
  dsimp only [Driver.wakeup]
  split
  case isTrue he => rw [he]; rfl
  case isFalse => rfl

/-- After `wakeup(b)` only threads sleep that wait for another buffer. -/
theorem Driver.asleep_wakeup (h : (s.wakeup b).place t = .asleep b') :
    s.place t = .asleep b' ∧ b' ≠ b := by
  dsimp only [Driver.wakeup] at h
  split at h
  case isTrue => cases h
  case isFalse hne => exact ⟨h, fun he => hne (he ▸ h)⟩

theorem Inv.complete (h : Inv s) (hq : s.idequeue = b :: rest) (ok : Bool) :
    Inv (s.complete b rest ok) := by
  refine ⟨h.panicked, (List.nodup_cons.mp (hq ▸ h.nodup)).2, fun {t b'} hp => ?_,
    fun hm => ?_, Option.map_congr fun b' hm => ?_⟩
  · have hw := h.waiting ((s.wakeup_buf b t).symm.trans hp)
    refine ⟨hw.lock, (h.mem_rest hq).trans ?_, fun hs => ?_⟩
    · by_cases he : b' = b
      · rw [he]
        simp [Driver.complete, Buf.synced, Buf.filled]
      · rw [Driver.complete_buf ok he, and_iff_left he]
        exact hw.queued
    · obtain ⟨hs, hne⟩ := Driver.asleep_wakeup hs
      exact (h.mem_rest hq).mpr ⟨hw.asleep hs, hne⟩
  · obtain ⟨hm, hne⟩ := (h.mem_rest hq).mp hm
    obtain ⟨hn, t, hp⟩ := h.queued hm
    rw [Driver.complete_buf ok hne]
    exact ⟨hn, t, (s.wakeup_buf b t).trans hp⟩
  · rw [Driver.complete_buf ok ((h.mem_rest hq).mp (List.mem_of_mem_head? hm)).2]

theorem Inv.commands_complete (h : Inv s) (hq : s.idequeue = b :: rest) (ok : Bool) :
    s.commands = (s.buf b).command :: (s.complete b rest ok).commands := by
  rw [Driver.commands, hq]
  refine congrArg _ (List.map_congr_left fun b' hm => congrArg Buf.command ?_)
  exact (Driver.complete_buf ok ((h.mem_rest hq).mp hm).2).symm

/-- The command that a step asks for. -/
def asked (s : Driver T B α) : Act T B α → Option (Command α)
  | .iderw _ b => some (s.buf b).command
  | _ => none

/-- The command that is over with a step, and whether it succeeded. -/
def ended (s : Driver T B α) : Act T B α → Option (Command α × Bool)
  | .ideintr ok => s.commands.head?.map fun c => (c, ok)
  | _ => none

/-- What a step can do. -/
inductive Change (s : Driver T B α) :
    Option (Command α) → Option (Command α × Bool) → Driver T B α → Prop
  | none : Change s none none s
  | change {b : B} (o : Option T) (x : Buf α) (h : s.Apart b) : Change s none none (s.change b o x)
  | move {t : T} {p : Place B} (h : Moves s t p) : Change s none none (s.move t p)
  | enqueue {t : T} {b : B} (ht : s.place t = .out) (h : called s (.iderw t b)) :
      Change s (some (s.buf b).command) none (s.enqueue t b)
  | complete {b : B} {rest : List B} (h : s.idequeue = b :: rest) (ok : Bool) :
      Change s none (some ((s.buf b).command, ok)) (s.complete b rest ok)

theorem Inv.step_change (h : Inv s) {a : Act T B α} (hc : called s a)
    (hs : step pid s a = some s') : Change s (asked s a) (ended s a) s' := by
  rw [step.eq_def, if_neg (not_not.mpr h.panicked)] at hs
  cases a with
  | client t b lock x =>
      obtain ⟨⟨ht, hb⟩, hs⟩ := Option.ite_none_right_eq_some.mp hs
      obtain rfl := Option.some.inj hs
      exact .change _ x (h.apart ht hb)
  | iderw t b =>
      obtain ⟨ht, hs⟩ := Option.ite_none_right_eq_some.mp hs
      obtain rfl := Option.some.inj hs
      rw [h.iderw_eq ht hc]
      exact .enqueue ht hc
  | ideintr ok =>
      obtain rfl := Option.some.inj hs
      rw [ended, Driver.commands]
      cases hq : s.idequeue with
      | nil =>
          rw [Driver.ideintr, hq]
          exact .none
      | cons b rest =>
          rw [h.ideintr_eq hq]
          exact .complete hq ok
  | exit t =>
      obtain ⟨b, hb, rfl⟩ := Option.map_eq_some_iff.mp hs
      exact .move (.awake hb.symm (by simp))
  | kill t =>
      dsimp only at hs
      split at hs
      case h_1 b hp =>
        obtain rfl := Option.some.inj hs
        exact .move (.awake (congrArg Place.buf hp).symm (by simp))
      case h_2 => cases hs
  | resume t =>
      dsimp only at hs
      split at hs
      case h_1 b hp =>
        obtain rfl := Option.some.inj hs
        exact .move (h.moves_await hp)
      case h_2 => cases hs

theorem Inv.step (h : Inv s) {a : Act T B α} (hc : called s a) (hs : step pid s a = some s') :
    Inv s' := by
  have hch := h.step_change hc hs
  generalize asked s a = o, ended s a = v at hch
  cases hch with
  | none => exact h
  | change o x hb => exact h.change hb o x
  | move hm => exact h.move hm
  | enqueue ht hc => exact h.enqueue ht hc
  | complete hq ok => exact h.complete hq ok

theorem inv_of_reach (h : (driver pid).Reach called s) : Inv s := by
  refine h.invariant (fun s hi => ?_) fun _ _ _ hi hc hs => hi.step hc hs
  refine ⟨hi.panicked, ?_, fun {t} b hp => ?_, fun hm => ?_, ?_⟩
  · rw [hi.idequeue]
    exact List.nodup_nil
  · rw [hi.place t] at hp
    cases hp
  · rw [hi.idequeue] at hm
    cases hm
  · rw [hi.active, hi.idequeue]
    rfl

/-! ## §4  Whole runs -/

instance calledDecidable (s : Driver T B α) (a : Act T B α) : Decidable (called s a) := by
  cases a <;> unfold called <;> infer_instance

/-- Two threads, two buffers for two blocks, the second to be written. -/
def twoIdle : Driver (Fin 2) (Fin 2) ℕ where
  buf b := ⟨false, b = 1, 0, b.val, 7⟩
  lock _ := none
  idequeue := []
  havedisk1 := false
  active := none
  disk _ := 0
  place _ := .out
  panicked := none

theorem twoIdle_idle : Idle twoIdle := ⟨rfl, rfl, fun _ => rfl, rfl⟩

def twoRequests : List (Act (Fin 2) (Fin 2) ℕ) :=
  [.client 0 0 true (twoIdle.buf 0), .iderw 0 0, .client 1 1 true (twoIdle.buf 1), .iderw 1 1]

theorem two_reach : ∃ s : Driver (Fin 2) (Fin 2) ℕ, (driver fun _ => 1).Reach called s ∧
    s.idequeue = [0, 1] ∧ s.place 1 = .asleep 1 := by
  have hrun : ((driver fun _ => 1).exec called twoIdle twoRequests).any
      (fun s => decide (s.idequeue = [0, 1] ∧ s.place 1 = .asleep 1)) = true := by
    decide
  exact Lib.System.exec_reach twoIdle_idle hrun

/-- The disk at the start, the commands of the calls of `iderw`, and those that are over. -/
structure History (α : Type) where
  disk : Sector → α
  calls : List (Command α)
  served : List (Command α × Bool)

def record (s : Driver T B α) (a : Act T B α) (_ : Driver T B α) (k : History α) : History α :=
  { k with
    calls := k.calls ++ (asked s a).toList
    served := k.served ++ (ended s a).toList }

def logged (pid : T → ℕ) : Lib.System (Driver T B α × History α) (Act T B α) :=
  (driver pid).withHistory (fun s => ⟨s.disk, [], []⟩) record

/-- The disk after some commands. -/
def replay (disk : Sector → α) (l : List (Command α × Bool)) : Sector → α :=
  l.foldl (fun d c => if c.2 then c.1.exec d else d) disk

/-- Commands are done in the order of the calls, each once, and the disk holds what those that
succeeded have written. -/
theorem served_in_order {x : Driver T B α × History α}
    (h : (logged pid).Reach (fun x a => called x.1 a) x) :
    x.2.calls = x.2.served.map Prod.fst ++ x.1.commands ∧
      x.1.disk = replay x.2.disk x.2.served := by
  refine Lib.System.Reach.history_invariant (M := driver pid) (J := Inv) (I := fun s k =>
    k.calls = k.served.map Prod.fst ++ s.commands ∧ s.disk = replay k.disk k.served)
    (fun _ => inv_of_reach) (fun s hi => ?_) (fun s a s' k hi hk hc hs => ?_) h
  · rw [Driver.commands, hi.idequeue]
    exact ⟨rfl, rfl⟩
  · obtain ⟨hcalls, hdisk⟩ := hk
    simp only [record]
    have hch := hi.step_change hc hs
    generalize asked s a = o, ended s a = v at hch
    cases hch with
    | none | move => simpa using ⟨hcalls, hdisk⟩
    | change o x hb =>
        rw [← hi.commands_change hb o x] at hcalls
        simpa using ⟨hcalls, hdisk⟩
    | enqueue => simpa [hcalls, Driver.commands, Driver.enqueue] using hdisk
    | complete hq ok =>
        have hc := hi.commands_complete hq ok
        simp [hcalls, hc, replay, Driver.complete, hdisk]

/-- The read is over, the write is not. -/
theorem served_in_order_two : ∃ x : Driver (Fin 2) (Fin 2) ℕ × History ℕ,
    x.2.served.length = 1 ∧ x.2.calls = x.2.served.map Prod.fst ++ x.1.commands := by
  have hinit : (logged fun _ => 1).init (twoIdle, ⟨twoIdle.disk, [], []⟩) := ⟨twoIdle_idle, rfl⟩
  have hrun : ((logged fun _ => 1).exec (fun x a => called x.1 a)
      (twoIdle, ⟨twoIdle.disk, [], []⟩) (twoRequests ++ [Act.ideintr true])).any
        (fun x => decide (x.2.served.length = 1)) = true := by
    decide
  obtain ⟨x, hx, h1⟩ := Lib.System.exec_reach hinit hrun
  exact ⟨x, h1, (served_in_order hx).1⟩

end Xv6.Ide
