import Xv6.Vm.Account

/-!
# What a call on a directory can change

`Within D m o m' o'`: pages that were neither free nor the directory `D`'s own are as
they were. `Effect D S m o m' o'`: besides, `D` is a directory afterwards, the entries
of pages outside of `S` and the contents of these pages are as before, and the call
keeps no page in its hands. Both compose, so the loops of `vm.c` are followed step by
step.
-/

namespace Xv6.Vm

open Xv6.Lib PanicM

variable {m m' m'' : Phys} {o o' o'' : ℕ → Owner} {f g D D' i v w : ℕ} {p : Page}
  {S T : ℕ → Prop}

/-! ## §1  Within a directory -/

/-- A page of the directory `D`. -/
def Owner.Of (D : ℕ) : Owner → Prop
  | .table D' _ | .user D' _ | .held D' => D' = D
  | _ => False

structure Within (D : ℕ) (m : Phys) (o : ℕ → Owner) (m' : Phys) (o' : ℕ → Owner) :
    Prop where
  acct : Acct m' o'
  frame : ∀ g, g ≠ D → o g ≠ .free → ¬ (o g).Of D → o' g = o g ∧ m'.mem g = m.mem g
  mine : ∀ g, g ≠ D → (o g = .free ∨ (o g).Of D) → (o' g = .free ∨ (o' g).Of D)

theorem Within.refl (h : Acct m o) : Within D m o m o :=
  ⟨h, fun _ _ _ _ => ⟨rfl, rfl⟩, fun _ _ => id⟩

theorem Within.trans (h : Within D m o m' o') (h' : Within D m' o' m'' o'') :
    Within D m o m'' o'' := by
  refine ⟨h'.acct, fun g hg hf hD => ?_, fun g hg hD => h'.mine g hg (h.mine g hg hD)⟩
  obtain ⟨ho, hm⟩ := h.frame g hg hf hD
  obtain ⟨ho', hm'⟩ := h'.frame g hg (ho ▸ hf) (ho ▸ hD)
  exact ⟨ho'.trans ho, hm'.trans hm⟩

/-- One page of the directory changes its owner. -/
theorem Within.update {x : Owner} (hacct : Acct m' (Function.update o f x))
    (hm : ∀ g, g ≠ D → o g ≠ .free → ¬ (o g).Of D → m'.mem g = m.mem g)
    (hf : o f = .free ∨ (o f).Of D) (hx : x = .free ∨ x.Of D) :
    Within D m o m' (Function.update o f x) := by
  refine ⟨hacct, fun g hg hfree hD => ⟨?_, hm g hg hfree hD⟩, fun g hg hD => ?_⟩
  · rw [Function.update_of_ne]
    rintro rfl
    exact hf.elim hfree hD
  · by_cases e : g = f
    · subst e
      rwa [Function.update_self]
    · rwa [Function.update_of_ne e]

section Other

variable (h : Within D m o m' o') (ha : Acct m o)
include h

theorem Within.dir_other (hD' : o D' = .dir) (hne : D' ≠ D) :
    o' D' = .dir ∧ m'.mem D' = m.mem D' := by
  have := h.frame D' hne (by rw [hD']; nofun) (by rw [hD']; exact id)
  rwa [hD'] at this

include ha

/-- The entries of another directory are untouched. -/
theorem Within.entry_other (hD' : o D' = .dir) (hne : D' ≠ D) (hdir : o D = .dir ∨ o D = .free)
    (hv : v < allPages) : m'.entry D' v = m.entry D' v := by
  have hmem := (h.dir_other hD' hne).2
  by_cases hp : Present (m.mem D' (v / nEntries))
  · have ht := ha.table_of hD' (div_nEntries_lt hv) hp
    have htD : pteAddr (m.mem D' (v / nEntries)) ≠ D := by
      intro e
      rw [e] at ht
      rcases hdir with hd | hd <;> rw [hd] at ht <;> cases ht
    have := (h.frame _ htD (by rw [ht]; nofun) (by rw [ht]; exact hne)).2
    rw [Phys.entry_of_present (hmem ▸ hp), Phys.entry_of_present hp, hmem, this]
  · rw [Phys.entry_of_not_present (hmem ▸ hp), Phys.entry_of_not_present hp]

end Other

/-! ## §2  Effects -/

structure Effect (D : ℕ) (S : ℕ → Prop) (m : Phys) (o : ℕ → Owner) (m' : Phys)
    (o' : ℕ → Owner) : Prop extends Within D m o m' o' where
  dir : o' D = .dir
  entry : ∀ v < allPages, ¬ S v → m'.entry D v = m.entry D v
  page : ∀ g v, ¬ S v → o g = .user D v → m'.mem g = m.mem g
  held : ∀ g, o' g = .held D → o g = .held D

namespace Effect

theorem refl (h : Acct m o) (hD : o D = .dir) : Effect D S m o m o :=
  ⟨.refl h, hD, fun _ _ _ => rfl, fun _ _ _ _ => rfl, fun _ => id⟩

theorem mono (h : Effect D S m o m' o') (hST : ∀ v, S v → T v) : Effect D T m o m' o' :=
  ⟨h.toWithin, h.dir, fun v hv hT => h.entry v hv fun hS => hT (hST v hS),
    fun g v hT => h.page g v fun hS => hT (hST v hS), h.held⟩

variable (h : Effect D S m o m' o')
include h

/-- A user page outside of `S` is kept. -/
theorem user (ha : Acct m o) (hS : ¬ S v) (hg : o g = .user D v) : o' g = .user D v := by
  obtain ⟨_, hv, hp, he⟩ := ha.user.mp hg
  have := h.entry v (lt_of_lt_of_le hv userPages_le) hS
  rw [← this] at hp he
  exact h.acct.user.mpr ⟨h.dir, hv, hp, he⟩

theorem trans (ha : Acct m o) (h' : Effect D S m' o' m'' o'') : Effect D S m o m'' o'' := by
  refine ⟨h.toWithin.trans h'.toWithin, h'.dir, fun v hv hS => ?_, fun g v hS hg => ?_,
    fun g hg => h.held g (h'.held g hg)⟩
  · exact (h'.entry v hv hS).trans (h.entry v hv hS)
  · exact (h'.page g v hS (h.user ha hS hg)).trans (h.page g v hS hg)

end Effect

/-! ## §3  Taking and freeing a page -/

def noPanic : Panic → Prop := fun _ => False

theorem wp_load {Q : ℕ → Phys → Prop} {P : Panic → Prop} (h : Q (m.mem f i) m) :
    wp (load f i) Q P m :=
  wp_bind (wp_get (wp_pure h))

theorem wp_store {Q : Unit → Phys → Prop} {P : Panic → Prop} (h : Q () (m.setWord f i w)) :
    wp (store f i w) Q P m :=
  wp_modify h

theorem wp_zeroPage {Q : Unit → Phys → Prop} {P : Panic → Prop}
    (h : Q () (m.setPage f fun _ => 0)) : wp (zeroPage f) Q P m :=
  wp_modify h

theorem wp_copyPage {Q : Unit → Phys → Prop} {P : Panic → Prop}
    (h : Q () (m.setPage f (m.mem g))) : wp (copyPage f g) Q P m :=
  wp_modify h

theorem wp_kalloc {Q : Option ℕ → Phys → Prop} {P : Panic → Prop}
    (hnone : m.free = [] → Q none m)
    (hsome : ∀ f fs, m.free = f :: fs → Q (some f) { m with free := fs }) :
    wp kalloc Q P m := by
  apply wp_bind
  apply wp_get
  cases hf : m.free with
  | nil => exact wp_pure (hnone hf)
  | cons f fs => exact wp_bind (wp_set (wp_pure (hsome f fs hf)))

/-- The memory after `kfree`. -/
def Phys.freed (m : Phys) (f : ℕ) : Phys :=
  { m.setPage f (fun _ => 0x01010101) with free := f :: m.free }

theorem Phys.freed_ne (h : g ≠ f) : (m.freed f).mem g = m.mem g := Phys.setPage_ne h

theorem wp_kfree {Q : Unit → Phys → Prop} {P : Panic → Prop} (ha : Acct m o)
    (hf : o f ≠ .outside) (h : Q () (m.freed f)) : wp (kfree f) Q P m := by
  have hr := ha.range hf
  apply wp_bind
  apply wp_get
  rw [if_neg]
  · exact wp_set h
  · rintro (hlt | hge)
    · exact absurd hr.1 (not_le.mpr hlt)
    · exact absurd hr.2 (not_lt.mpr hge)

section Hold

variable {fs : List ℕ}

theorem Acct.owner_of_free (ha : Acct m o) (hf : m.free = f :: fs) : o f = .free :=
  ha.free.mp (hf ▸ List.mem_cons_self)

/-- The page taken from the free list and filled, in the hands of a call on `D`. -/
theorem Acct.hold (ha : Acct m o) (hf : m.free = f :: fs) (p : Page) :
    Acct ({ m with free := fs }.setPage f p) (Function.update o f (.held D)) := by
  apply (ha.take hf Owner.loose_held).write
  rw [Function.update_self]
  rfl

theorem within_hold (ha : Acct m o) (hf : m.free = f :: fs) (p : Page) :
    Within D m o ({ m with free := fs }.setPage f p) (Function.update o f (.held D)) := by
  have hfree := ha.owner_of_free hf
  apply Within.update (ha.hold hf p)
  · intro g _ hg _
    apply Phys.setPage_ne
    rintro rfl
    exact hg hfree
  · exact .inl hfree
  · exact .inr rfl

theorem entry_hold (ha : Acct m o) (hf : m.free = f :: fs) (hD : o D = .dir)
    (hv : v < allPages) :
    ({ m with free := fs }.setPage f p).entry D v = m.entry D v := by
  apply ha.entry_congr hD hv
  intro g hg
  apply Phys.setPage_ne
  rintro rfl
  rw [ha.owner_of_free hf] at hg
  cases hg

/-- A page is given back by the call that holds it. -/
theorem within_freed (ha : Acct m o) (hf : o f = .held D) :
    Within D m o (m.freed f) (Function.update o f .free) := by
  have hof : (o f).Of D := by
    rw [hf]
    exact rfl
  apply Within.update (ha.give (by rw [hf]; exact Owner.loose_held) _)
  · intro g _ _ hg
    apply Phys.freed_ne
    rintro rfl
    exact hg hof
  · exact .inr hof
  · exact .inl rfl

/-- A call takes a page, which it does not hold any more in the end. -/
theorem Effect.of_hold (ha : Acct m o) (hf : m.free = f :: fs) (hD : o D = .dir)
    (h : Effect D S ({ m with free := fs }.setPage f p) (Function.update o f (.held D)) m' o')
    (hnot : o' f ≠ .held D) : Effect D S m o m' o' := by
  have hfree := ha.owner_of_free hf
  refine ⟨(within_hold ha hf p).trans h.toWithin, h.dir, fun v hv hS => ?_,
    fun g v hS hg => ?_, fun g hg => ?_⟩
  · rw [h.entry v hv hS, entry_hold ha hf hD hv]
  · have hgf : g ≠ f := by
      rintro rfl
      rw [hfree] at hg
      cases hg
    rw [h.page g v hS (by rwa [Function.update_of_ne hgf]), Phys.setPage_ne hgf]
  · have hgf : g ≠ f := by
      rintro rfl
      exact hnot hg
    have := h.held g hg
    rwa [Function.update_of_ne hgf] at this

/-- A call gives back the page it holds. -/
theorem Effect.freed (h : Effect D S m o m' o') (hf : o' f = .held D)
    (hf0 : o f = .held D) : Effect D S m o (m'.freed f) (Function.update o' f .free) := by
  have hDf : D ≠ f := by
    rintro rfl
    rw [h.dir] at hf
    cases hf
  refine ⟨h.toWithin.trans (within_freed h.acct hf), ?_, fun v hv hS => ?_,
    fun g v hS hg => ?_, fun g hg => ?_⟩
  · rw [Function.update_of_ne hDf]
    exact h.dir
  · rw [← h.entry v hv hS]
    apply h.acct.entry_congr h.dir hv
    intro g hg
    apply Phys.freed_ne
    rintro rfl
    rw [hf] at hg
    cases hg
  · have hgf : g ≠ f := by
      rintro rfl
      rw [hf0] at hg
      cases hg
    rw [Phys.freed_ne hgf, h.page g v hS hg]
  · by_cases hgf : g = f
    · subst hgf
      rw [Function.update_self] at hg
      cases hg
    · rw [Function.update_of_ne hgf] at hg
      exact h.held g hg

end Hold

end Xv6.Vm
