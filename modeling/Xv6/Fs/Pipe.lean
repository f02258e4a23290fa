import Mathlib.Data.List.Nodup
import Xv6.Lib.CircularBuffer
import Xv6.Lib.Transition

/-!
# Pipes

`pipewrite`, `piperead` and `pipeclose` of pipe.c, for any number of callers. A step
is a stretch that runs under the lock of the pipe: from the `acquire`, or from the
return of `sleep`, up to the next `sleep` or to the `release`. A caller that sleeps
may go on at any time, since `kill` wakes it as well as `wakeup`.

When both ends are closed the page of the pipe is freed; there is no pipe, and no
stretch under its lock, from then on.
-/

namespace Xv6.Pipes

open Xv6.Lib

/-! ## §1  The model -/

/-- `PIPESIZE` -/
def pipeSize : ℕ := 512

instance : NeZero pipeSize := ⟨by decide⟩

/-- `struct pipe` without its lock. -/
structure Pipe where
  data : Fin pipeSize → UInt8
  nread : UInt32
  nwrite : UInt32
  readopen : Bool
  writeopen : Bool

/-- What `pipealloc` returns, in a page with the bytes `data`. -/
def pipealloc (data : Fin pipeSize → UInt8) : Pipe where
  data := data
  nread := 0
  nwrite := 0
  readopen := true
  writeopen := true

namespace Pipe

/-- `p->nwrite == p->nread + PIPESIZE` -/
def Full (p : Pipe) : Prop := p.nwrite = p.nread + 512

instance (p : Pipe) : Decidable p.Full := inferInstanceAs (Decidable (_ = _))

/-- `p->data[p->nwrite++ % PIPESIZE] = b` -/
def put (p : Pipe) (b : UInt8) : Pipe :=
  { p with
    data := Function.update p.data (cell pipeSize p.nwrite.toNat) b
    nwrite := p.nwrite + 1 }

/-- `p->data[p->nread % PIPESIZE]` -/
def front (p : Pipe) : UInt8 := p.data (cell pipeSize p.nread.toNat)

/-- `p->nread++` -/
def skip (p : Pipe) : Pipe := { p with nread := p.nread + 1 }

end Pipe

/-- The loop of `pipewrite`, up to its end or to where the pipe is full, and the number
of bytes stored. -/
def pipewriteLoop (p : Pipe) : List UInt8 → Pipe × ℕ
  | [] => (p, 0)
  | b :: bs =>
      if p.Full then (p, 0)
      else ((pipewriteLoop (p.put b) bs).1, (pipewriteLoop (p.put b) bs).2 + 1)

/-- The second loop of `piperead`, and the bytes it copies. -/
def pipereadLoop (p : Pipe) : ℕ → Pipe × List UInt8
  | 0 => (p, [])
  | n + 1 =>
      if p.nread = p.nwrite then (p, [])
      else ((pipereadLoop p.skip n).1, p.front :: (pipereadLoop p.skip n).2)

/-- `pipeclose` up to the `release`. -/
def pipeclose (p : Pipe) (writable : Bool) : Pipe :=
  if writable then { p with writeopen := false } else { p with readopen := false }

/-- Where a call is. `rest` are the bytes that `pipewrite` has still to store; the
result of `piperead` is `none` for -1. -/
inductive Phase where
  | ready
  | writing (src rest : List UInt8)
  | wrote (src : List UInt8) (ret : ℤ)
  | reading (n : ℕ)
  | read (n : ℕ) (ret : Option (List UInt8))
deriving DecidableEq, Repr

/-- The pipe, and the calls of type `C` that are made to it. `stored` and `reads` are
history: the bytes that were stored, each with its call, and the results of the
`piperead`s that did not fail. -/
structure State (C : Type) where
  pipe : Pipe
  freed : Bool
  phase : C → Phase
  stored : List (C × UInt8)
  reads : List (C × List UInt8)

inductive Act (C : Type) where
  | pipewrite (c : C) (src : List UInt8)
  | piperead (c : C) (n : ℕ)
  | run (c : C) (killed : Bool)
  | pipeclose (writable : Bool)

variable {C : Type} [DecidableEq C]

def State.goto (s : State C) (c : C) (ph : Phase) : State C :=
  { s with phase := Function.update s.phase c ph }

/-- A stretch of `pipewrite`. -/
def runWrite (s : State C) (c : C) (killed : Bool) (src rest : List UInt8) : State C :=
  let p := (pipewriteLoop s.pipe rest).1
  let k := (pipewriteLoop s.pipe rest).2
  let s := { s with pipe := p, stored := s.stored ++ (rest.take k).map fun b => (c, b) }
  if rest.drop k = [] then s.goto c (.wrote src src.length)
  else if p.readopen = false ∨ killed = true then s.goto c (.wrote src (-1))
  else s.goto c (.writing src (rest.drop k))

/-- A stretch of `piperead`. -/
def runRead (s : State C) (c : C) (killed : Bool) (n : ℕ) : State C :=
  if s.pipe.nread = s.pipe.nwrite ∧ s.pipe.writeopen = true then
    if killed then s.goto c (.read n none) else s
  else
    let r := pipereadLoop s.pipe n
    { s with pipe := r.1, reads := s.reads ++ [(c, r.2)] }.goto c (.read n (some r.2))

def step (s : State C) (a : Act C) : Option (State C) :=
  if s.freed then none
  else match a with
  | .pipewrite c src =>
      if s.phase c = .ready then some (s.goto c (.writing src src)) else none
  | .piperead c n => if s.phase c = .ready then some (s.goto c (.reading n)) else none
  | .run c killed =>
      match s.phase c with
      | .writing src rest => some (runWrite s c killed src rest)
      | .reading n => some (runRead s c killed n)
      | _ => none
  | .pipeclose writable =>
      let p := pipeclose s.pipe writable
      some { s with pipe := p, freed := !p.readopen && !p.writeopen }

/-- A pipe that was just allocated. -/
def Initial (s : State C) : Prop :=
  (∃ data, s.pipe = pipealloc data) ∧ s.freed = false ∧ (∀ c, s.phase c = .ready) ∧
  s.stored = [] ∧ s.reads = []

variable (C) in
def system : System (State C) (Act C) where
  init := Initial
  step := step

/-- The bytes that a call has stored, in order. -/
def State.storedBy (s : State C) (c : C) : List UInt8 :=
  (s.stored.filter fun x => decide (x.1 = c)).map Prod.snd

/-! ## §2  The loops on the queue -/

/-- The pipe holds the queue `q`. -/
def Pipe.Holds (p : Pipe) (q : List UInt8) : Prop :=
  Buffers pipeSize (2 ^ 32) p.data p.nread.toNat p.nwrite.toNat q

theorem pipeSize_dvd : pipeSize ∣ 2 ^ 32 := by decide

theorem pipeSize_lt : pipeSize < 2 ^ 32 := by decide

namespace Pipe.Holds

variable {p : Pipe} {q bs : List UInt8} {b : UInt8} {n : ℕ}

theorem empty_iff (h : p.Holds q) : p.nread = p.nwrite ↔ q = [] := by
  rw [← Buffers.empty_iff h pipeSize_lt]
  exact UInt32.toNat_inj.symm

theorem full_iff (h : p.Holds q) : p.Full ↔ q.length = pipeSize := by
  rw [← Buffers.full_iff h pipeSize_lt]
  unfold Full
  rw [← UInt32.toNat_inj, UInt32.toNat_add]
  rfl

/-- The difference of the counters is the length of the queue. -/
theorem toNat_sub (h : p.Holds q) : (p.nwrite - p.nread).toNat = q.length := by
  have hlen : q.length < 2 ^ 32 := Nat.lt_of_le_of_lt h.length_le pipeSize_lt
  have hr : p.nread.toNat < 2 ^ 32 := h.read_lt
  rw [UInt32.toNat_sub, h.write_eq]
  omega

theorem put (h : p.Holds q) (hp : ¬ p.Full) (b : UInt8) : (p.put b).Holds (q ++ [b]) := by
  have hlt : q.length < pipeSize :=
    Nat.lt_of_le_of_ne h.length_le fun e => hp (h.full_iff.mpr e)
  have hpush := Buffers.push h pipeSize_dvd hlt b
  have hw : (p.nwrite + 1).toNat = (p.nwrite.toNat + 1) % 2 ^ 32 := UInt32.toNat_add ..
  rw [← hw] at hpush
  exact hpush

theorem front (h : p.Holds (b :: q)) : p.front = b :=
  Buffers.front h

theorem skip (h : p.Holds (b :: q)) : p.skip.Holds q := by
  have hpop := Buffers.pop h pipeSize_dvd
  have hr : (p.nread + 1).toNat = (p.nread.toNat + 1) % 2 ^ 32 := UInt32.toNat_add ..
  rw [← hr] at hpop
  exact hpop

/-- The bytes that `pipewrite` stores come behind the queue. -/
theorem write (h : p.Holds q) (bs : List UInt8) :
    (pipewriteLoop p bs).1.Holds (q ++ bs.take (pipewriteLoop p bs).2) := by
  induction bs generalizing p q with
  | nil =>
      rw [List.take_nil, List.append_nil]
      exact h
  | cons b bs ih =>
      unfold pipewriteLoop
      split_ifs with hp
      · rw [List.take_zero, List.append_nil]
        exact h
      · have := ih (h.put hp b)
        rwa [List.append_assoc] at this

/-- The bytes that `piperead` returns are the front of the queue. -/
theorem read (h : p.Holds q) (n : ℕ) : ∃ q', (pipereadLoop p n).1.Holds q' ∧
    q = (pipereadLoop p n).2 ++ q' := by
  induction n generalizing p q with
  | zero => exact ⟨q, h, rfl⟩
  | succ n ih =>
      unfold pipereadLoop
      split_ifs with he
      · exact ⟨q, h, rfl⟩
      · cases q with
        | nil => exact absurd (h.empty_iff.mpr rfl) he
        | cons b q =>
            obtain ⟨q', hq', rfl⟩ := ih h.skip
            exact ⟨q', hq', congrArg (· :: _) h.front.symm⟩

end Pipe.Holds

/-- `piperead` copies a byte if it is asked for one and there is one. -/
theorem pipereadLoop_eq_nil {p : Pipe} {n : ℕ} (h : (pipereadLoop p n).2 = []) :
    p.nread = p.nwrite ∨ n = 0 := by
  cases n with
  | zero => exact .inr rfl
  | succ n =>
      unfold pipereadLoop at h
      split_ifs at h with he
      exact .inl he

/-! ## §3  The invariant -/

/-- What a call has stored in a phase. -/
def Phase.Stored (bs : List UInt8) : Phase → Prop
  | .writing src rest => src = bs ++ rest
  | .wrote src ret => ret = src.length → bs = src
  | _ => bs = []

structure Inv (s : State C) : Prop where
  queue : ∃ q, s.pipe.Holds q ∧
    s.stored.map Prod.snd = (s.reads.map Prod.snd).flatten ++ q
  stored : ∀ c, (s.phase c).Stored (s.storedBy c)
  reads : ∀ c bs, (c, bs) ∈ s.reads ↔ ∃ n, s.phase c = .read n (some bs)
  once : (s.reads.map Prod.fst).Nodup

section Steps

variable {s s' : State C} {c : C} {killed : Bool} {src rest : List UInt8} {n : ℕ} {ph : Phase}

theorem State.goto_self : (s.goto c ph).phase c = ph := Function.update_self ..

theorem State.goto_ne {c' : C} (h : c' ≠ c) : (s.goto c ph).phase c' = s.phase c' :=
  Function.update_of_ne h ..

/-- The bytes of a stretch are those of its call. -/
theorem storedBy_append (s : State C) (c c' : C) (bs : List UInt8) (ps : Pipe) :
    State.storedBy { s with pipe := ps, stored := s.stored ++ bs.map fun b => (c, b) } c' =
      if c' = c then s.storedBy c ++ bs else s.storedBy c' := by
  have hf : ((bs.map fun b => (c, b)).filter fun x => decide (x.1 = c')).map Prod.snd =
      if c' = c then bs else [] := by
    by_cases h : c' = c
    · subst h
      simp [List.filter_map, Function.comp_def]
    · have h' : ¬ c = c' := fun e => h e.symm
      simp [List.filter_map, Function.comp_def, h, h']
  unfold State.storedBy
  rw [List.filter_append, List.map_append, hf]
  split_ifs with h
  · rw [h]
  · exact List.append_nil _

/-- A call moves to a phase in which it has stored the same and has no result. -/
theorem Inv.goto (h : Inv s) (hst : ph.Stored (s.storedBy c))
    (hold : ∀ n bs, s.phase c ≠ .read n (some bs)) (hnew : ∀ n bs, ph ≠ .read n (some bs)) :
    Inv (s.goto c ph) where
  queue := h.queue
  stored c' := by
    by_cases e : c' = c
    · subst e
      rw [State.goto_self]
      exact hst
    · rw [State.goto_ne e]
      exact h.stored c'
  reads c' bs := by
    rw [show (s.goto c ph).reads = s.reads from rfl, h.reads]
    by_cases e : c' = c
    · subst e
      rw [State.goto_self]
      exact ⟨fun ⟨n, hn⟩ => absurd hn (hold n bs), fun ⟨n, hn⟩ => absurd hn (hnew n bs)⟩
    · rw [State.goto_ne e]
  once := h.once

/-- A caller that has just stored bytes. -/
theorem Inv.write (h : Inv s) (hc : s.phase c = .writing src rest)
    (hst : ph.Stored (s.storedBy c ++ rest.take (pipewriteLoop s.pipe rest).2))
    (hnew : ∀ n bs, ph ≠ .read n (some bs)) :
    Inv (State.goto { s with
      pipe := (pipewriteLoop s.pipe rest).1
      stored := s.stored ++ (rest.take (pipewriteLoop s.pipe rest).2).map fun b => (c, b) }
      c ph) where
  queue := by
    obtain ⟨q, hq, hs⟩ := h.queue
    refine ⟨_, hq.write rest, ?_⟩
    show (s.stored ++ _).map Prod.snd = _
    rw [List.map_append, hs, List.map_map, Function.comp_def, List.map_id', List.append_assoc]
    rfl
  stored c' := by
    show ((State.goto _ c ph).phase c').Stored (State.storedBy { s with
      pipe := (pipewriteLoop s.pipe rest).1
      stored := s.stored ++ (rest.take (pipewriteLoop s.pipe rest).2).map fun b => (c, b) } c')
    rw [storedBy_append]
    by_cases e : c' = c
    · subst e
      rw [State.goto_self, if_pos rfl]
      exact hst
    · rw [State.goto_ne e, if_neg e]
      exact h.stored c'
  reads c' bs := by
    show (c', bs) ∈ s.reads ↔ _
    rw [h.reads]
    by_cases e : c' = c
    · subst e
      rw [State.goto_self, hc]
      exact ⟨nofun, fun ⟨n, hn⟩ => absurd hn (hnew n bs)⟩
    · rw [State.goto_ne e]
  once := h.once

theorem Inv.runWrite (h : Inv s) (hc : s.phase c = .writing src rest) :
    Inv (runWrite s c killed src rest) := by
  have hsrc : src = s.storedBy c ++ rest := by
    have := h.stored c
    rwa [hc] at this
  have hsplit := List.take_append_drop (pipewriteLoop s.pipe rest).2 rest
  unfold Pipes.runWrite
  dsimp only
  split_ifs with hdone hret
  · refine h.write hc (fun _ => ?_) nofun
    rw [hdone, List.append_nil] at hsplit
    rw [hsplit, hsrc]
  · refine h.write hc (fun hneg => ?_) nofun
    have : (0 : ℤ) ≤ src.length := Int.natCast_nonneg _
    omega
  · have hst : (Phase.writing src (rest.drop (pipewriteLoop s.pipe rest).2)).Stored
        (s.storedBy c ++ rest.take (pipewriteLoop s.pipe rest).2) := by
      show src = _
      rw [List.append_assoc, hsplit, hsrc]
    exact h.write hc hst nofun

theorem Inv.runRead (h : Inv s) (hc : s.phase c = .reading n) :
    Inv (runRead s c killed n) := by
  have hst : s.storedBy c = [] := by
    have := h.stored c
    rwa [hc] at this
  have hold : ∀ n bs, s.phase c ≠ .read n (some bs) := by
    rw [hc]
    nofun
  unfold Pipes.runRead
  split_ifs with hwait hkill
  · exact h.goto hst hold nofun
  · exact h
  · refine ⟨?_, ?_, ?_, ?_⟩
    · obtain ⟨q, hq, hs⟩ := h.queue
      obtain ⟨q', hq', rfl⟩ := hq.read n
      refine ⟨q', hq', ?_⟩
      show s.stored.map Prod.snd = ((s.reads ++ [_]).map Prod.snd).flatten ++ q'
      rw [hs, List.map_append, List.flatten_append, List.append_assoc]
      simp
    · intro c'
      show ((State.goto _ c _).phase c').Stored (s.storedBy c')
      by_cases e : c' = c
      · subst e
        rw [State.goto_self]
        exact hst
      · rw [State.goto_ne e]
        exact h.stored c'
    · intro c' bs
      show (c', bs) ∈ s.reads ++ [(c, (pipereadLoop s.pipe n).2)] ↔ _
      rw [List.mem_append, List.mem_singleton, Prod.mk.injEq, h.reads]
      by_cases e : c' = c
      · subst e
        rw [State.goto_self]
        constructor
        · rintro (⟨m, hm⟩ | ⟨_, rfl⟩)
          · exact absurd hm (hold m bs)
          · exact ⟨n, rfl⟩
        · rintro ⟨m, hm⟩
          obtain ⟨_, hbs⟩ := Phase.read.inj hm
          exact .inr ⟨rfl, (Option.some.inj hbs).symm⟩
      · rw [State.goto_ne e]
        exact ⟨fun hm => hm.resolve_right fun hm => e hm.1, .inl⟩
    · show ((s.reads ++ [(c, _)]).map Prod.fst).Nodup
      rw [List.map_append, List.nodup_append]
      refine ⟨h.once, List.nodup_singleton _, ?_⟩
      rintro c₁ hc₁ c₂ hc₂ rfl
      obtain ⟨⟨_, bs⟩, hmem, rfl⟩ := List.mem_map.mp hc₁
      rw [List.map_singleton, List.mem_singleton] at hc₂
      obtain rfl := hc₂
      obtain ⟨m, hm⟩ := (h.reads _ bs).mp hmem
      exact hold m bs hm

theorem pipeclose_holds {p : Pipe} {q : List UInt8} (h : p.Holds q) (writable : Bool) :
    (pipeclose p writable).Holds q := by
  cases writable <;> exact h

theorem Inv.step {a : Act C} (h : Inv s) (hs : step s a = some s') : Inv s' := by
  unfold Pipes.step at hs
  split_ifs at hs
  cases a with
  | pipewrite c src =>
      dsimp only at hs
      split_ifs at hs with hc
      obtain rfl := Option.some.inj hs
      have hst : s.storedBy c = [] := by
        have := h.stored c
        rwa [hc] at this
      refine h.goto ?_ (by rw [hc]; nofun) nofun
      rw [hst]
      exact (List.nil_append src).symm
  | piperead c n =>
      dsimp only at hs
      split_ifs at hs with hc
      obtain rfl := Option.some.inj hs
      refine h.goto ?_ (by rw [hc]; nofun) nofun
      have := h.stored c
      rwa [hc] at this
  | run c killed =>
      dsimp only at hs
      split at hs
      · obtain rfl := Option.some.inj hs
        exact h.runWrite ‹_›
      · obtain rfl := Option.some.inj hs
        exact h.runRead ‹_›
      · cases hs
  | pipeclose writable =>
      obtain rfl := Option.some.inj hs
      obtain ⟨q, hq, hst⟩ := h.queue
      exact ⟨⟨q, pipeclose_holds hq writable, hst⟩, h.stored, h.reads, h.once⟩

theorem Initial.inv (h : Initial s) : Inv s := by
  obtain ⟨⟨data, hp⟩, -, hph, hst, hr⟩ := h
  refine ⟨⟨[], ?_, ?_⟩, ?_, ?_, ?_⟩
  · rw [hp]
    exact Buffers.nil (Nat.zero_lt_succ _)
  · rw [hst, hr]
    rfl
  · intro c
    rw [hph c]
    show s.storedBy c = []
    unfold State.storedBy
    rw [hst]
    rfl
  · intro c bs
    rw [hr, hph c]
    exact ⟨nofun, nofun⟩
  · rw [hr]
    exact List.nodup_nil

theorem inv_of_reach (h : (system C).Reach System.anyStep s) : Inv s :=
  h.invariant (I := Inv) (fun _ hi => Initial.inv hi) fun _ _ _ hi _ hs => Inv.step hi hs

/-- A step of another caller, or a `pipeclose`. -/
theorem step_other {a : Act C} (hs : step s a = some s') (hc : s.phase c ≠ .ready)
    (ha : ∀ killed, a ≠ .run c killed) : s'.phase c = s.phase c := by
  unfold step at hs
  split_ifs at hs
  cases a with
  | pipewrite c₁ src =>
      dsimp only at hs
      split_ifs at hs with h₁
      obtain rfl := Option.some.inj hs
      exact State.goto_ne fun e => hc (e ▸ h₁)
  | piperead c₁ n =>
      dsimp only at hs
      split_ifs at hs with h₁
      obtain rfl := Option.some.inj hs
      exact State.goto_ne fun e => hc (e ▸ h₁)
  | run c₁ killed =>
      have e : c ≠ c₁ := by
        rintro rfl
        exact ha killed rfl
      dsimp only at hs
      split at hs
      · obtain rfl := Option.some.inj hs
        unfold runWrite
        dsimp only
        split_ifs <;> exact State.goto_ne e
      · obtain rfl := Option.some.inj hs
        unfold runRead
        split_ifs
        · exact State.goto_ne e
        · rfl
        · exact State.goto_ne e
      · cases hs
  | pipeclose writable =>
      obtain rfl := Option.some.inj hs
      rfl

/-- A stretch in which a `piperead` returns no byte. -/
theorem runRead_nil (hc : s.phase c = .reading n)
    (hc' : (runRead s c killed n).phase c = .read n (some [])) :
    s.pipe.nread = s.pipe.nwrite ∧ s.pipe.writeopen = false ∨ n = 0 := by
  unfold runRead at hc'
  split_ifs at hc' with hwait hkill
  · rw [State.goto_self] at hc'
    cases hc'
  · rw [hc] at hc'
    cases hc'
  · rw [State.goto_self] at hc'
    have hnil := Option.some.inj (Phase.read.inj hc').2
    rcases pipereadLoop_eq_nil hnil with he | hn
    · exact .inl ⟨he, Bool.eq_false_iff.mpr fun hw => hwait ⟨he, hw⟩⟩
    · exact .inr hn

theorem step_read_nil {a : Act C} (hs : step s a = some s') (hc : s.phase c = .reading n)
    (hc' : s'.phase c = .read n (some [])) :
    s.pipe.nread = s.pipe.nwrite ∧ s.pipe.writeopen = false ∨ n = 0 := by
  by_cases ha : ∀ killed, a ≠ .run c killed
  · rw [step_other hs (by rw [hc]; nofun) ha, hc] at hc'
    cases hc'
  · obtain ⟨killed, ha⟩ := not_forall.mp ha
    obtain rfl := not_not.mp ha
    unfold step at hs
    split_ifs at hs
    dsimp only at hs
    rw [hc] at hs
    obtain rfl := Option.some.inj hs
    exact runRead_nil hc hc'

end Steps

/-! ## §4  A pipe is a queue -/

/-- Two writers and a reader of 4 bytes, who reads before the second writer stores;
then the write end is closed and a second reader gets the rest. -/
def runs : List (Act ℕ) :=
  [.pipewrite 0 [1, 2], .piperead 1 4, .pipewrite 2 [3], .run 1 false, .run 0 false,
    .run 1 false, .run 2 false, .pipeclose true, .piperead 3 4, .run 3 false]

def start : State ℕ where
  pipe := pipealloc fun _ => 0
  freed := false
  phase _ := .ready
  stored := []
  reads := []

end Xv6.Pipes
