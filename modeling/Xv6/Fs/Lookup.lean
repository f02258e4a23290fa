import Xv6.Fs.Names

/-!
# Path lookup as a fold

`namei` and `nameiparent` follow the elements of a path, one `lookup` after the other, from
the root or from the current directory. While they do so, they have one reference in hand,
and two while they go from one directory to the next; in the end the one to the inode that is
returned is left. This takes two entries of the inode cache that are not in use, where a full
cache makes `iget` panic.
-/

namespace Xv6.Inodes

open Xv6.Lib PanicM

variable {s s' s₀ : Fs} {A : ℕ → Option Node} {T : Tables} {L : Multiset Slot}
  {R : Multiset (Slot × ℕ)} {i : Slot} {n m : ℕ} {path name rest : List UInt8}

/-! ## §1  Paths and directories -/

/-- `namei` -/
def namei (cwd : Slot) (path : List UInt8) : M (Option Slot) := do
  match ← namex cwd path false with
  | none => return none
  | some (ip, _) => return some ip

/-- `nameiparent`: the inode, and the name. -/
def nameiparent (cwd : Slot) (path : List UInt8) : M (Option (Slot × List UInt8)) :=
  namex cwd path true

/-- The elements of a path, each cut to `DIRSIZ` bytes. -/
def components (path : List UInt8) : List (List UInt8) :=
  ((path.splitOnP (· == slash)).filter (· ≠ [])).map (·.take dirsiz)

/-- The inode of a name in directory `n`. -/
def lookup (A : ℕ → Option Node) (n : ℕ) (name : List UInt8) : Option ℕ := do
  let x ← A n
  if x.kind = .dir then
    ((List.range (entries x.data)).find? fun e => decide (Matches x.data name e)).map
      (inumAt x.data)
  else none

/-- The directory that all elements but the last lead to, and the last one. -/
def lookupParent (A : ℕ → Option Node) (n : ℕ) (names : List (List UInt8)) :
    Option (ℕ × List UInt8) := do
  let name ← names.getLast?
  let m ← names.dropLast.foldlM (lookup A) n
  let x ← A m
  if x.kind = .dir then some (m, name) else none

/-- Where a path begins. -/
def startOf (s : Fs) (cwd : Slot) (path : List UInt8) : ℕ :=
  if path.head? = some slash then rootino else (s.icache cwd).inum

theorem components_nil : components [] = [] := rfl

theorem components_slash : components (slash :: path) = components path := by
  unfold components
  rw [List.splitOnP_cons_eq_if_modifyHead, if_pos (BEq.rfl : slash == slash)]
  rfl

theorem components_dropWhile : components (path.dropWhile (· == slash)) = components path := by
  induction path with
  | nil => rfl
  | cons b path ih =>
      by_cases hb : b = slash
      · rw [List.dropWhile_cons_of_pos (by rw [hb]; rfl), ih, hb, components_slash]
      · rw [List.dropWhile_cons_of_neg (by rwa [beq_iff_eq])]

/-- A path that begins with an element. -/
theorem components_element {b : UInt8} (hb : b ≠ slash) : components (b :: path) =
    ((b :: path).takeWhile (· != slash)).take dirsiz ::
      components ((b :: path).dropWhile (· != slash)) := by
  have hne : (b :: path).takeWhile (· != slash) ≠ [] := by
    rw [List.takeWhile_cons_of_pos (by rwa [bne_iff_ne])]
    nofun
  have hall : ∀ c ∈ (b :: path).takeWhile (· != slash), (c == slash) = false := by
    intro c hc
    have := List.all_eq_true.mp List.all_takeWhile c hc
    rwa [bne, Bool.not_eq_true'] at this
  have hhead := List.head?_dropWhile_not (· != slash) (b :: path)
  conv_lhs => rw [← List.takeWhile_append_dropWhile (p := (· != slash)) (l := b :: path)]
  generalize (b :: path).takeWhile (· != slash) = word at *
  generalize (b :: path).dropWhile (· != slash) = rest at *
  cases rest with
  | nil =>
      rw [List.append_nil, components, List.splitOnP_eq_singleton hall]
      simp [hne, components_nil]
  | cons c rest =>
      obtain rfl : c = slash := by simpa using hhead
      rw [components_slash, components, List.splitOnP_append_cons_of_forall_mem hall _ BEq.rfl,
        List.filter_cons_of_pos (by simpa using hne)]
      rfl

theorem skipelem_none (h : skipelem path = none) : components path = [] := by
  rw [← components_dropWhile]
  unfold skipelem at h
  split at h
  · rename_i e
    rw [e]
    rfl
  · cases h

theorem head_dropWhile_slash {b : UInt8} (h : path.dropWhile (· == slash) = b :: rest) :
    b ≠ slash := by
  have hhead := List.head?_dropWhile_not (· == slash) path
  rw [h] at hhead
  simpa using hhead

theorem skipelem_some (h : skipelem path = some (name, rest)) :
    components path = name :: components rest ∧ rest.length < path.length ∧
      (rest = [] ↔ components rest = []) := by
  unfold skipelem at h
  rw [← components_dropWhile]
  have hle : (path.dropWhile (· == slash)).length ≤ path.length :=
    (List.dropWhile_sublist _).length_le
  cases hq : path.dropWhile (· == slash) with
  | nil =>
      rw [hq] at h
      cases h
  | cons b q =>
      rw [hq] at h hle
      obtain ⟨rfl, rfl⟩ := Prod.mk.inj (Option.some.inj h)
      have hb := head_dropWhile_slash hq
      refine ⟨?_, ?_, fun e => by rw [e]; rfl, fun e => ?_⟩
      · rw [components_dropWhile, components_element hb]
      · have hdrop : (b :: q).dropWhile (· != slash) = q.dropWhile (· != slash) :=
          List.dropWhile_cons_of_pos (by rwa [bne_iff_ne])
        rw [hdrop]
        have h₁ := (List.dropWhile_sublist (· == slash) (l := q.dropWhile (· != slash))).length_le
        have h₂ := (List.dropWhile_sublist (· != slash) (l := q)).length_le
        rw [List.length_cons] at hle
        omega
      · cases hr : ((b :: q).dropWhile (· != slash)).dropWhile (· == slash) with
        | nil => rfl
        | cons c r =>
            rw [hr, components_element (head_dropWhile_slash hr)] at e
            cases e

theorem lookup_eq_some {x : Node} (hx : A n = some x) (hk : x.kind = .dir) {e : ℕ}
    (he : e < entries x.data) (hm : Matches x.data name e)
    (hfirst : ∀ e' < e, ¬ Matches x.data name e') : lookup A n name = some (inumAt x.data e) := by
  have hfind : ((List.range (entries x.data)).find? fun e => decide (Matches x.data name e)) =
      some e := by
    rw [List.find?_range_eq_some]
    refine ⟨decide_eq_true hm, List.mem_range.mpr he, fun e' he' => ?_⟩
    simpa using hfirst e' he'
  show (A n).bind _ = _
  rw [hx, Option.bind_some, if_pos hk, hfind]
  rfl

theorem lookup_eq_none {x : Node} (hx : A n = some x)
    (hno : x.kind = .dir → ∀ e < entries x.data, ¬ Matches x.data name e) :
    lookup A n name = none := by
  show (A n).bind _ = _
  rw [hx, Option.bind_some]
  split_ifs with hk
  · rw [Option.map_eq_none_iff, List.find?_range_eq_none]
    intro e he
    simpa using hno hk e he
  · rfl

/-- What `namex` returns for the elements of a path. -/
def follow (A : ℕ → Option Node) (parent : Bool) : ℕ → List (List UInt8) →
    Option (ℕ × List UInt8)
  | n, [] => if parent then none else some (n, [])
  | n, name :: names =>
      if parent && names.isEmpty then
        (A n).bind fun x => if x.kind = .dir then some (n, name) else none
      else (lookup A n name).bind fun m => follow A parent m names

section Follow

variable {parent : Bool} {names : List (List UInt8)} {x : Node}

theorem follow_file (hx : A n = some x) (hk : x.kind ≠ .dir) :
    follow A parent n (name :: names) = none := by
  rw [follow]
  split_ifs
  · rw [hx, Option.bind_some, if_neg hk]
  · rw [lookup_eq_none hx fun hdir => absurd hdir hk, Option.bind_none]

theorem follow_stop (hx : A n = some x) (hk : x.kind = .dir)
    (hstop : (parent && names.isEmpty) = true) :
    follow A parent n (name :: names) = some (n, name) := by
  rw [follow, if_pos hstop, hx, Option.bind_some, if_pos hk]

theorem follow_go (hgo : ¬ (parent && names.isEmpty) = true) :
    follow A parent n (name :: names) = (lookup A n name).bind fun m => follow A parent m names := by
  rw [follow, if_neg hgo]

end Follow

/-- `namei` folds over the elements. -/
theorem follow_namei (names : List (List UInt8)) :
    follow A false n names = (names.foldlM (lookup A) n).map fun m => (m, []) := by
  induction names generalizing n with
  | nil => rfl
  | cons name names ih =>
      show (lookup A n name).bind _ = ((lookup A n name).bind _).map _
      rw [Option.map_bind]
      exact congrArg _ (funext fun m => ih)

theorem lookupParent_concat (names : List (List UInt8)) :
    lookupParent A n (names ++ [name]) = (names.foldlM (lookup A) n).bind fun m =>
      (A m).bind fun x => if x.kind = .dir then some (m, name) else none := by
  rw [lookupParent, List.getLast?_concat, List.dropLast_concat]
  rfl

/-- `nameiparent` folds over all elements but the last. -/
theorem follow_nameiparent (names : List (List UInt8)) :
    follow A true n names = lookupParent A n names := by
  rcases List.eq_nil_or_concat names with rfl | ⟨names, name, rfl⟩
  · rfl
  · rw [List.concat_eq_append, lookupParent_concat]
    induction names generalizing n with
    | nil => rfl
    | cons first names ih =>
        have hgo : ¬ (true && (names ++ [name]).isEmpty) = true := by simp
        rw [List.cons_append, follow_go hgo]
        show _ = ((lookup A n first).bind _).bind _
        rw [Option.bind_assoc]
        exact congrArg _ (funext fun m => ih)

/-! ## §2  Nothing panics -/

namespace Running

section

variable (h : Running names T L R A s)
include h

theorem ilock_ok (hi : 0 < (s.icache i).ref) (hl : i ∉ L) :
    wp (ilock i) (fun _ s' => Running names T (i ::ₘ L) R A s' ∧
      ∀ j, (s'.icache j).inum = (s.icache j).inum) (fun _ => False) s := by
  have hE : wp (ilock i) (fun _ _ => True) (fun e => e = .ilockNoType) s := by
    refine wp_mono (Inodes.ilock_spec (E := fun e => e = .ilockNoType) (fun hr => ?_)
      (fun hb => ?_) fun _ _ => rfl) (fun _ _ _ => trivial) fun _ => id
    · exact absurd hi (by omega)
    · exact absurd ((h.locked i).mp hb) hl
  refine wp_mono (wp_and (h.ilock_spec hi) (wp_and (fixed_ilock i s) hE)) ?_ ?_
  · rintro _ s' ⟨h', hnum, _⟩
    exact ⟨h', hnum⟩
  · rintro e ⟨hallow, _, rfl⟩
    exact hallow.2 trivial rfl

/-- A reference to an inode that stays. -/
theorem iput_ok {R' : Multiset (Slot × ℕ)} (hR : R = (i, n) ::ₘ R') (hl : i ∉ L)
    (hlast : ¬ s.Last i) :
    wp (iput i) (fun _ s' => Running names T L R' A s' ∧
      ∀ j, (s'.icache j).inum = (s.icache j).inum) (fun _ => False) s := by
  subst hR
  have hfree : (s.icache i).locked = false := by
    rw [← Bool.not_eq_true, h.locked i]
    exact hl
  refine wp_mono (wp_and h.iput_spec (wp_and (fixed_iput i s)
    (iput_keep_spec (E := fun _ => False) hfree hlast))) ?_ fun _ he => he.2.2
  rintro _ s' ⟨⟨_, h'⟩ | ⟨hyes, _⟩, hnum, _⟩
  · exact ⟨h', hnum⟩
  · exact absurd hyes hlast

end

theorem iunlock_ok (h : Running names T (i ::ₘ L) R A s) :
    wp (iunlock i) (fun _ s' => Running names T L R A s' ∧
      ∀ j, (s'.icache j).inum = (s.icache j).inum) (fun _ => False) s := by
  have hmem := Multiset.mem_cons_self i L
  refine wp_mono (wp_and h.iunlock_spec (wp_and (fixed_iunlock i s)
    (Inodes.iunlock_spec (E := fun _ => False) ?_))) ?_ fun _ he => he.2.2
  · rintro (hb | hr)
    · rw [(h.locked i).mpr hmem] at hb
      cases hb
    · have := h.pos i hmem
      omega
  · rintro _ s' ⟨h', hnum, _⟩
    exact ⟨h', hnum⟩

theorem iget_ok (h : Running names T L R A s) (hn : n < T.sb.ninodes) (hx : ∃ x, A n = some x)
    (hroom : ∃ j, (s.icache j).ref = 0) :
    wp (iget n) (fun i s' => Running names T L ((i, n) ::ₘ R) A s' ∧
      ∀ j, 0 < (s.icache j).ref → (s'.icache j).inum = (s.icache j).inum) (fun _ => False) s := by
  refine wp_mono (wp_and (h.iget_spec (fun _ => hn) fun _ => hx)
    (wp_and iget_frame Inodes.iget_spec)) ?_ ?_
  · rintro i s' ⟨h', ⟨hnum, _⟩, _⟩
    exact ⟨h', hnum⟩
  · rintro e ⟨_, _, _, hfull⟩
    obtain ⟨j, hj⟩ := hroom
    exact hfull j hj

/-- `dirlookup` is `lookup`, if there is an entry of the cache for what it finds. -/
theorem dirlookup_ok {dp : Slot} (h : Running names T (dp ::ₘ L) ((dp, n) ::ₘ R) A s)
    (hnames : TargetsIn A n) (hk : (s.icache dp).d.kind = .dir)
    (hroom : ∃ j, (s.icache j).ref = 0) :
    wp (dirlookup dp name) (fun r s' => match r with
        | none => lookup A n name = none ∧ s' = s
        | some (i, _) => ∃ x e, A n = some x ∧ x.kind = .dir ∧ inumAt x.data e ≠ 0 ∧
            lookup A n name = some (inumAt x.data e) ∧
            Running names T (dp ::ₘ L) ((i, inumAt x.data e) ::ₘ (dp, n) ::ₘ R) A s' ∧
            ∀ j, 0 < (s.icache j).ref → (s'.icache j).inum = (s.icache j).inum)
      (fun _ => False) s := by
  have hl := Multiset.mem_cons_self dp L
  have hd := h.disk trivial
  have hnode := h.node hl (h.inum (Multiset.mem_cons_self ..)) trivial
  have hlist := (hd.isDir (h.pos dp hl) (h.valid hl trivial) hk).listing
  apply hlist.dirlookup_rule
  · intro hno
    exact ⟨lookup_eq_none hnode fun _ => hno, rfl⟩
  · intro e he hm hfirst
    have hlt : inumAt (contents (s.icache dp).d s.block) e < T.sb.ninodes := by
      rw [← h.sb]
      exact (hd.dirs n _ hnode hk).2 e
    refine wp_mono (h.iget_ok hlt (hnames _ e hnode hk hm.1) hroom) ?_ fun _ => id
    rintro i s' ⟨h', hnum⟩
    exact ⟨_, e, hnode, hk, hm.1, lookup_eq_some hnode hk he hm hfirst, h', hnum⟩

end Running

/-! ## §3  The walk -/

/-- The inode is there, and has links or is in use. -/
def Stays (A : ℕ → Option Node) (s : Fs) (n : ℕ) : Prop :=
  ∃ x, A n = some x ∧ (x.nlink = 0 → ∃ i, 0 < (s.icache i).ref ∧ (s.icache i).inum = n)

/-- There is a root, and no entry dangles. -/
structure Tree (A : ℕ → Option Node) (s : Fs) : Prop where
  root : Stays A s rootino
  names : ∀ n x e, A n = some x → x.kind = .dir → inumAt x.data e ≠ 0 →
    Stays A s (inumAt x.data e)

theorem Tree.targets (h : Tree A s) (n : ℕ) : TargetsIn A n := by
  intro x e hx hk h0
  obtain ⟨y, hy, _⟩ := h.names n x e hx hk h0
  exact ⟨y, hy⟩

/-- Entries that are in use stay with their inodes. -/
def Fs.Keeps (s₀ s : Fs) : Prop :=
  ∀ j, 0 < (s₀.icache j).ref → (s.icache j).inum = (s₀.icache j).inum

/-- Two entries of the cache are not in use. -/
def Fs.Room (s : Fs) : Prop := ∃ a b, a ≠ b ∧ (s.icache a).ref = 0 ∧ (s.icache b).ref = 0

section References

variable {R₁ : Multiset (Slot × ℕ)} {L₁ : Multiset Slot}

theorem Refs.ref_le (h₀ : Refs T L R s₀) (h : Refs T L₁ R₁ s) (hR : R ≤ R₁) (j : Slot) :
    (s₀.icache j).ref ≤ (s.icache j).ref := by
  have hcount := Multiset.count_le_of_le j (Multiset.map_le_map (f := Prod.fst) hR)
  rw [h₀.ref, h.ref]
  omega

theorem Fs.Keeps.trans (hk : s₀.Keeps s) (h₀ : Refs T L R s₀) (h : Refs T L₁ R₁ s) (hR : R ≤ R₁)
    (h' : s.Keeps s') : s₀.Keeps s' := by
  intro j hj
  have hle := h₀.ref_le h hR j
  rw [h' j (by omega), hk j hj]

theorem Fs.Keeps.fixed (hk : s₀.Keeps s) (h' : ∀ j, (s'.icache j).inum = (s.icache j).inum) :
    s₀.Keeps s' := fun j hj => (h' j).trans (hk j hj)

/-- An inode that stays has links, or another reference. -/
theorem Stays.not_last (hs : Stays A s₀ n) (h₀ : Running names T 0 R A s₀)
    (h : Running names T L₁ ((i, n) ::ₘ R₁) A s) (hR : R ≤ R₁) (hk : s₀.Keeps s) :
    ¬ s.Last i := by
  intro hlast
  have hmem := Multiset.mem_cons_self (i, n) R₁
  have hpos := h.pos_of_mem hmem
  obtain ⟨hheld, hnot⟩ := h.held_of_last hlast
  obtain ⟨x, hx, hzero⟩ := hs
  have hnode := (h.disk trivial).node hpos hlast.1
  rw [h.toRefs.inum hmem, hx] at hnode
  have h0 : x.nlink = 0 := by
    rw [Option.some.inj hnode]
    exact hlast.2.1
  obtain ⟨j, hj, hjn⟩ := hzero h0
  have hle := h₀.toRefs.ref_le h.toRefs (le_trans hR (Multiset.le_cons_self ..)) j
  obtain rfl : j = i := by
    refine (h.disk trivial).unique j i (by omega) hpos ?_
    rw [hk j hj, hjn, h.toRefs.inum hmem]
  rw [h₀.ref, hheld, Multiset.count_eq_zero_of_notMem] at hj
  · exact absurd hj (by decide)
  · intro hm
    obtain ⟨p, hp, rfl⟩ := Multiset.mem_map.mp hm
    exact hnot p.2 (Multiset.mem_of_le hR hp)

/-- With one more reference in hand there is still an entry that is not in use. -/
theorem Fs.Room.one (hr : s₀.Room) (h₀ : Refs T L R s₀) (h : Refs T L₁ ((i, n) ::ₘ R) s) :
    ∃ j, (s.icache j).ref = 0 := by
  have hfree : ∀ j, j ≠ i → (s₀.icache j).ref = 0 → (s.icache j).ref = 0 := by
    intro j hj h0
    rw [h.ref, Refs.count_cons_ne hj, ← h₀.ref, h0]
  obtain ⟨a, b, hab, ha, hb⟩ := hr
  by_cases hai : a = i
  · exact ⟨b, hfree b (hai ▸ hab.symm) hb⟩
  · exact ⟨a, hfree a hai ha⟩

end References

namespace Running

theorem iunlockput_ok (h : Running names T (i ::ₘ L) ((i, n) ::ₘ R) A s)
    (hlast : ∀ s', Running names T L ((i, n) ::ₘ R) A s' →
      (∀ j, (s'.icache j).inum = (s.icache j).inum) → ¬ s'.Last i) :
    wp (iunlockput i) (fun _ s' => Running names T L R A s' ∧
      ∀ j, (s'.icache j).inum = (s.icache j).inum) (fun _ => False) s := by
  apply wp_call h.iunlock_ok
  rintro _ s₁ ⟨h₁, hnum₁⟩
  refine wp_mono (h₁.iput_ok rfl (Multiset.nodup_cons.mp h.nodup).1 (hlast s₁ h₁ hnum₁)) ?_
    fun _ => id
  rintro _ s₂ ⟨h₂, hnum₂⟩
  exact ⟨h₂, fun j => (hnum₂ j).trans (hnum₁ j)⟩

/-- What `namex` leaves, where the elements of the path lead to `target`. -/
def Ends (T : Tables) (R : Multiset (Slot × ℕ)) (A : ℕ → Option Node) (s₀ : Fs)
    (target : Option (ℕ × List UInt8)) (r : Option (Slot × List UInt8)) (s : Fs) : Prop :=
  s₀.Keeps s ∧ match target with
  | none => r = none ∧ Running names T 0 R A s
  | some (n, name) => ∃ i, r = some (i, name) ∧ Running names T 0 ((i, n) ::ₘ R) A s

section Walk

variable {parent : Bool} (h₀ : Running names T 0 R A s₀)
include h₀

theorem namexEnd_ok (h : Running names T 0 ((i, n) ::ₘ R) A s) (hk : s₀.Keeps s)
    (hs : Stays A s₀ n) :
    wp (namexEnd parent i) (Ends T R A s₀ (follow A parent n [])) (fun _ => False) s := by
  unfold namexEnd
  cases parent with
  | true =>
      apply wp_call (h.iput_ok rfl (Multiset.notMem_zero i) (hs.not_last h₀ h le_rfl hk))
      rintro _ s₁ ⟨h₁, hnum⟩
      exact wp_pure ⟨hk.fixed hnum, rfl, h₁⟩
  | false => exact wp_pure ⟨hk, i, rfl, h⟩

/-- `namex` from inode `n` on. -/
theorem namexLoop_ok {fuel : ℕ} (ht : Tree A s₀) (hroom : s₀.Room)
    (h : Running names T 0 ((i, n) ::ₘ R) A s) (hk : s₀.Keeps s) (hs : Stays A s₀ n)
    (hf : path.length ≤ fuel) :
    wp (namexLoop parent fuel i path) (Ends T R A s₀ (follow A parent n (components path)))
      (fun _ => False) s := by
  induction fuel generalizing i n path s with
  | zero =>
      obtain rfl := List.eq_nil_of_length_eq_zero (Nat.le_zero.mp hf)
      exact h₀.namexEnd_ok h hk hs
  | succ fuel ih =>
      unfold namexLoop
      cases hskip : skipelem path with
      | none =>
          rw [skipelem_none hskip]
          exact h₀.namexEnd_ok h hk hs
      | some p =>
          obtain ⟨name, rest⟩ := p
          obtain ⟨hpath, hlen, hlast⟩ := skipelem_some hskip
          have hempty : rest.isEmpty = (components rest).isEmpty := by
            rw [Bool.eq_iff_iff, List.isEmpty_iff, List.isEmpty_iff]
            exact hlast
          have hmem := Multiset.mem_cons_self (i, n) R
          rw [hpath]
          apply wp_call (h.ilock_ok (h.pos_of_mem hmem) (Multiset.notMem_zero i))
          rintro _ s₁ ⟨h₁, hnum₁⟩
          have hk₁ := hk.fixed hnum₁
          have hnode := h₁.node (Multiset.mem_cons_self i 0) (h₁.toRefs.inum hmem) trivial
          apply wp_bind
          apply wp_slot
          apply wp_ite
          · intro hkind
            rw [follow_file hnode hkind]
            apply wp_call (h₁.iunlockput_ok fun s' h' hnum =>
              hs.not_last h₀ h' le_rfl (hk₁.fixed hnum))
            rintro _ s₂ ⟨h₂, hnum₂⟩
            exact wp_pure ⟨hk₁.fixed hnum₂, rfl, h₂⟩
          · intro hkind
            have hdir := not_not.mp hkind
            apply wp_ite
            · intro hstop
              rw [follow_stop hnode hdir (hempty ▸ hstop)]
              apply wp_call h₁.iunlock_ok
              rintro _ s₂ ⟨h₂, hnum₂⟩
              exact wp_pure ⟨hk₁.fixed hnum₂, i, rfl, h₂⟩
            · intro hgo
              rw [follow_go (hempty ▸ hgo)]
              apply wp_call (h₁.dirlookup_ok (ht.targets n) hdir (hroom.one h₀.toRefs h₁.toRefs))
              rintro (_ | ⟨next, off⟩) s₂ hr
              · obtain ⟨hnone, rfl⟩ := hr
                rw [hnone, Option.bind_none]
                apply wp_call (h₁.iunlockput_ok fun s' h' hnum =>
                  hs.not_last h₀ h' le_rfl (hk₁.fixed hnum))
                rintro _ s₃ ⟨h₃, hnum₃⟩
                exact wp_pure ⟨hk₁.fixed hnum₃, rfl, h₃⟩
              · obtain ⟨x, e, hx, hxdir, hne, hsome, h₂, hnum₂⟩ := hr
                rw [hsome, Option.bind_some]
                have hle := Multiset.le_cons_self R (next, inumAt x.data e)
                have hk₂ := hk₁.trans h₀.toRefs h₁.toRefs (Multiset.le_cons_self ..) hnum₂
                rw [Multiset.cons_swap] at h₂
                apply wp_call (h₂.iunlockput_ok fun s' h' hnum =>
                  hs.not_last h₀ h' hle (hk₂.fixed hnum))
                rintro _ s₃ ⟨h₃, hnum₃⟩
                exact ih h₃ (hk₂.fixed hnum₃) (ht.names n x e hx hxdir hne) (by omega)

/-- `namex` follows the elements of the path, and ends. -/
theorem namex_ok {p : Pid} {cwd : Slot} (ht : Tree A s₀) (hroom : s₀.Room)
    (hp : T.cwd p = some cwd) (path : List UInt8) (parent : Bool) :
    wp (namex cwd path parent)
      (Ends T R A s₀ (follow A parent (startOf s₀ cwd path) (components path)))
      (fun _ => False) s₀ := by
  unfold namex startOf
  apply wp_ite
  · intro habs
    rw [if_pos habs]
    obtain ⟨x, hx, _⟩ := ht.root
    obtain ⟨β, htidy, _⟩ := (h₀.disk trivial).nodes
    have hfree : ∃ j, (s₀.icache j).ref = 0 := by
      obtain ⟨a, _, _, ha, _⟩ := hroom
      exact ⟨a, ha⟩
    apply wp_call (h₀.iget_ok (h₀.sb ▸ htidy.sb.ninodes) ⟨x, hx⟩ hfree)
    rintro i s₁ ⟨h₁, hk⟩
    exact h₀.namexLoop_ok ht hroom h₁ hk ht.root le_rfl
  · intro hrel
    rw [if_neg hrel]
    have hpos := h₀.toRefs.pos_of_cwd hp
    obtain ⟨x, hx⟩ := h₀.alive trivial cwd hpos
    apply wp_call (wp_mono (wp_and (h₀.idup_spec hpos) (Inodes.idup_spec (E := fun _ => False)))
      (fun _ _ => id) fun _ he => he.2)
    rintro j s₁ ⟨⟨rfl, h₁⟩, _, rfl⟩
    exact h₀.namexLoop_ok ht hroom h₁ (fun k _ => s₀.inum_setRef j _ k) ⟨x, hx, fun _ => ⟨j, hpos, rfl⟩⟩
      le_rfl

end Walk

end Running

/-! ## §4  The result -/

/-- After a lookup that returns entry `r`: one more reference to it, no lock, the inodes of
the disk and those of the entries in use as before. -/
structure LeavesOne (A : ℕ → Option Node) (s : Fs) (r : Option Slot) (s' : Fs) : Prop where
  ref : ∀ i, (s'.icache i).ref = (s.icache i).ref + if r = some i then 1 else 0
  locked : ∀ i, (s'.icache i).locked = false
  inum : s.Keeps s'
  disk : Disk A s'

theorem Running.unlocked (h : Running names T 0 R A s) (i : Slot) :
    (s.icache i).locked = false := by
  rw [← Bool.not_eq_true, h.locked i]
  exact Multiset.notMem_zero i

theorem Running.Ends.leaves {target : Option (ℕ × List UInt8)} {r : Option (Slot × List UInt8)}
    (h₀ : Running names T 0 R A s) (h : Ends T R A s target r s') :
    r.map (fun q => ((s'.icache q.1).inum, q.2)) = target ∧
      LeavesOne A s (r.map Prod.fst) s' := by
  obtain ⟨hk, h⟩ := h
  match target, h with
  | none, ⟨hr, h'⟩ =>
      subst hr
      refine ⟨rfl, fun i => ?_, h'.unlocked, hk, h'.disk trivial⟩
      rw [h'.ref, h₀.ref]
      exact (Int.add_zero _).symm
  | some (n, name), ⟨i, hr, h'⟩ =>
      subst hr
      refine ⟨?_, fun j => ?_, h'.unlocked, hk, h'.disk trivial⟩
      · rw [Option.map_some, h'.toRefs.inum (Multiset.mem_cons_self ..)]
      · rw [h'.ref, h₀.ref, Option.map_some]
        by_cases hj : j = i
        · rw [hj, Refs.count_cons_self, if_pos rfl]
          omega
        · rw [Refs.count_cons_ne hj, if_neg fun e => hj (Option.some.inj e).symm]
          omega

/-- Names in order do not dangle. -/
theorem Ordered.tree (h : Ordered s) : Tree s.nodes s where
  root := by
    obtain ⟨x, hx, hk⟩ := h.named.root
    exact ⟨x, hx, fun h0 => absurd h0 (h.named.nlink_dir hx hk).ne'⟩
  names n x e hx hk h0 := by
    obtain ⟨y, hy, hlinks⟩ := h.named.namesIn n x e hx hk h0
    exact ⟨y, hy, fun h0 => absurd h0 hlinks⟩

def emptyFile (nlink : ℤ) : Dinode where
  kind := .file
  major := 0
  minor := 0
  nlink := nlink
  size := 0
  addrs _ := 0

/-- 49 files have been removed and are still open, and the root is the current directory of
the first process: the cache is full. Inode 51 is in the root directory, as `a`. -/
def crowded : Fs where
  sb := rootDisk.sb
  bit := rootDisk.bit
  dinode n := if n = rootino then rootInode else if n = 51 then emptyFile 1
    else if 1 < n ∧ n < 51 then emptyFile 0 else .new .free
  block b := if b = 59 then fun i =>
      (dirent rootino dot ++ dirent rootino dotdot ++ dirent 51 [97]).getD i.val 0
    else .zero
  icache i := {
    inum := i + 1
    ref := 1
    locked := false
    valid := true
    d := if i = 0 then rootInode else emptyFile 0 }
  devsw _ := none
  file f := {
    type := if f.val < 49 then .inode else .none
    ref := if f.val < 49 then 1 else 0
    readable := true
    writable := false
    ip := Fin.ofNat ninode (f + 1)
    off := 0 }
  proc p := { cwd := if p = initproc then some 0 else none, ofile := fun _ => none }
  outstanding := 0
  allocs := []

theorem crowded_dinode {n : ℕ} (hn : n ≠ rootino) : (crowded.dinode n).kind ≠ .dir ∧
    (crowded.dinode n).size = 0 ∧ ∀ k, (crowded.dinode n).addrs k = 0 := by
  simp only [crowded, if_neg hn]
  split_ifs
  · exact ⟨nofun, rfl, fun _ => rfl⟩
  · exact ⟨nofun, rfl, fun _ => rfl⟩
  · exact ⟨nofun, rfl, fun _ => rfl⟩

theorem crowded_rootOnly : RootOnly crowded where
  sb := rfl
  bit := rfl
  root := rfl
  others _ hn := (crowded_dinode hn).2
  allocs := rfl

/-- The bytes of the root directory. -/
def crowdedData : List UInt8 := contents rootInode crowded.block

set_option maxRecDepth 10000 in
theorem inumAt_crowdedData (e : ℕ) : direntSize ∣ crowdedData.length ∧
    inumAt crowdedData e = if e < 2 then rootino else if e = 2 then 51 else 0 := by
  have hlt : ∀ e < 32, inumAt crowdedData e = if e < 2 then rootino else if e = 2 then 51 else 0 := by
    decide
  have hlen : crowdedData.length = 512 := by
    rw [crowdedData, contents, List.length_map, List.length_range]
    rfl
  have hwhole : direntSize ∣ crowdedData.length := by
    rw [hlen]
    decide
  refine ⟨hwhole, ?_⟩
  by_cases he : e < 32
  · exact hlt e he
  · have hle : entries crowdedData ≤ e := by
      rw [entries, hlen]
      exact Nat.le_of_not_lt he
    rw [inumAt_of_le hle hwhole, if_neg (by omega), if_neg (by omega)]

/-- The root is the only directory. -/
theorem crowded_dir {x : Node} (hx : crowded.nodes n = some x) (hk : x.kind = .dir) :
    n = rootino ∧ x = ⟨.dir, 1, crowdedData⟩ := by
  by_cases hn : n = rootino
  · subst hn
    exact ⟨rfl, (Option.some.inj hx).symm⟩
  · obtain ⟨_, hnode⟩ := Option.ite_none_right_eq_some.mp hx
    obtain ⟨_, hsome⟩ := Option.ite_none_left_eq_some.mp hnode
    obtain rfl := Option.some.inj hsome
    exact absurd hk (crowded_dinode hn).1

theorem crowded_disk : Disk crowded.nodes crowded where
  nodes := ⟨_, crowded_rootOnly.tidy, rfl⟩
  dirs n x hx hk := by
    obtain ⟨_, rfl⟩ := crowded_dir hx hk
    refine ⟨?_, fun e => ?_⟩
    · dsimp only
      exact (inumAt_crowdedData 0).1
    · dsimp only
      rw [(inumAt_crowdedData e).2]
      split_ifs <;> decide
  inum := by
    decide
  same i _ _ := by
    by_cases hi : i = 0
    · subst hi
      exact ⟨rfl, nofun⟩
    · have h0 : 0 < i.val := Fin.pos_of_ne_zero hi
      have h50 : i.val < 50 := i.isLt
      have hd : crowded.dinode (i.val + 1) = emptyFile 0 := by
        have hroot : i.val + 1 ≠ rootino := Nat.succ_ne_succ_iff.mpr h0.ne'
        have h51 : i.val + 1 ≠ 51 := by omega
        have hin : 1 < i.val + 1 ∧ i.val + 1 < 51 := by omega
        simp only [crowded, if_neg hroot, if_neg h51, if_pos hin]
      have hc : (crowded.icache i).d = emptyFile 0 := if_neg hi
      show (crowded.icache i).d = crowded.dinode (i.val + 1) ∧ _
      rw [hd, hc]
      exact ⟨rfl, nofun⟩
  unique i j _ _ h := Fin.ext (Nat.succ.inj h)
  locked _ := nofun
  files _ _ _ := ⟨rfl, nofun⟩

theorem crowded_balanced : Balanced crowded where
  ref := by decide
  locked _ := rfl
  outstanding := rfl
  free := by decide

theorem crowded_tree : Tree crowded.nodes crowded where
  root := ⟨_, rfl, nofun⟩
  names n x e hx hk h0 := by
    obtain ⟨_, rfl⟩ := crowded_dir hx hk
    dsimp only at h0 ⊢
    rw [(inumAt_crowdedData e).2] at h0 ⊢
    split_ifs at h0 ⊢
    · exact ⟨_, rfl, nofun⟩
    · exact ⟨_, rfl, nofun⟩
    · exact absurd rfl h0

theorem crowded_running : Running names (tablesOf crowded) 0 0 crowded.nodes crowded where
  toRefs := crowded_balanced.refs
  disk _ := crowded_disk
  alive _ _ hi := ⟨_, crowded_disk.node hi rfl⟩
  cwds _ q i hq := by
    obtain ⟨_, hi⟩ := Option.ite_none_right_eq_some.mp hq
    obtain rfl := Option.some.inj hi
    exact ⟨_, rfl, rfl⟩

end Xv6.Inodes
