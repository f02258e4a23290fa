import Mathlib.Data.Set.Insert
import Mathlib.Logic.Function.Basic

/-!
# Marks of things that are in use

Things of type `B` are at places of type `R`, at most one at a place, or in hand,
and a mark is kept for each of them. `Ledger` says that the marks are right: a
thing is marked if and only if it is somewhere, and it is in one place only. Each
move of a thing (`take`, `give_back`, `put`, `pick_up`) keeps that; a program that
keeps marks is checked one move at a time.
-/

namespace Xv6.Lib

variable {R B : Type} {place place' : R → Option B} {hand : Set B} {used used' : B → Prop}
  {r r' : R} {b b' : B}

structure Ledger (place : R → Option B) (hand : Set B) (used : B → Prop) : Prop where
  unique : ∀ {r r' b}, place r = some b → place r' = some b → r = r'
  apart : ∀ {r b}, place r = some b → b ∉ hand
  marks : ∀ b, used b ↔ b ∈ hand ∨ ∃ r, place r = some b

namespace Ledger

/-- A thing that is not marked is nowhere. -/
theorem nowhere (h : Ledger place hand used) (hb : ¬ used b) :
    b ∉ hand ∧ ∀ r, place r ≠ some b := by
  rw [h.marks b, not_or, not_exists] at hb
  exact hb

/-- A thing that is not in use is marked and taken in hand. -/
theorem take (h : Ledger place hand used) (hb : ¬ used b)
    (hused : ∀ c, used' c ↔ c = b ∨ used c) : Ledger place (insert b hand) used' where
  unique := h.unique
  apart {r c} hr := by
    rintro (rfl | hc)
    · exact (h.nowhere hb).2 r hr
    · exact h.apart hr hc
  marks c := by
    rw [hused c, h.marks c, Set.mem_insert_iff, or_assoc]

/-- A thing in hand is given back. -/
theorem give_back (h : Ledger place hand used) (hb : b ∈ hand)
    (hused : ∀ c, used' c ↔ c ≠ b ∧ used c) : Ledger place (hand \ {b}) used' where
  unique := h.unique
  apart hr hc := h.apart hr hc.1
  marks c := by
    rw [hused c, h.marks c]
    constructor
    · rintro ⟨hne, hc | hc⟩
      · exact .inl ⟨hc, hne⟩
      · exact .inr hc
    · rintro (⟨hc, hne⟩ | ⟨r, hr⟩)
      · exact ⟨hne, .inl hc⟩
      · refine ⟨?_, .inr ⟨r, hr⟩⟩
        rintro rfl
        exact h.apart hr hb

/-- A thing in hand is put at a place that is empty. -/
theorem put (h : Ledger place hand used) (hb : b ∈ hand) (hr : place r = none)
    (hself : place' r = some b) (hne : ∀ r', r' ≠ r → place' r' = place r') :
    Ledger place' (hand \ {b}) used := by
  have hold : ∀ {r' c}, place' r' = some c → r' = r ∧ c = b ∨ r' ≠ r ∧ place r' = some c := by
    intro r' c hc
    by_cases e : r' = r
    · subst e
      exact .inl ⟨rfl, Option.some.inj (hc.symm.trans hself)⟩
    · exact .inr ⟨e, (hne r' e).symm.trans hc⟩
  refine ⟨?_, ?_, ?_⟩
  · intro r₁ r₂ c h₁ h₂
    rcases hold h₁ with ⟨rfl, rfl⟩ | ⟨_, h₁⟩ <;> rcases hold h₂ with ⟨rfl, e⟩ | ⟨_, h₂⟩
    · rfl
    · exact absurd hb (h.apart h₂)
    · exact absurd (e ▸ hb) (h.apart h₁)
    · exact h.unique h₁ h₂
  · intro r' c hc hm
    rcases hold hc with ⟨_, rfl⟩ | ⟨_, hc⟩
    · exact hm.2 rfl
    · exact h.apart hc hm.1
  · intro c
    rw [h.marks c]
    constructor
    · rintro (hc | ⟨r', hr'⟩)
      · by_cases e : c = b
        · exact .inr ⟨r, e ▸ hself⟩
        · exact .inl ⟨hc, e⟩
      · refine .inr ⟨r', ?_⟩
        rw [hne r', hr']
        rintro rfl
        cases hr.symm.trans hr'
    · rintro (hc | ⟨r', hr'⟩)
      · exact .inl hc.1
      · rcases hold hr' with ⟨_, rfl⟩ | ⟨_, hc⟩
        · exact .inl hb
        · exact .inr ⟨r', hc⟩

/-- What is at the places of `S` is taken in hand. -/
theorem pick_up (h : Ledger place hand used) (S : Set R)
    (hin : ∀ r ∈ S, place' r = none) (hout : ∀ r, r ∉ S → place' r = place r) :
    Ledger place' (hand ∪ {b | ∃ r ∈ S, place r = some b}) used := by
  have hold : ∀ {r c}, place' r = some c → r ∉ S ∧ place r = some c := by
    intro r c hc
    by_cases e : r ∈ S
    · cases (hin r e).symm.trans hc
    · exact ⟨e, (hout r e).symm.trans hc⟩
  refine ⟨?_, ?_, ?_⟩
  · intro r₁ r₂ c h₁ h₂
    exact h.unique (hold h₁).2 (hold h₂).2
  · rintro r c hc (hm | ⟨r', hr', hc'⟩)
    · exact h.apart (hold hc).2 hm
    · exact (hold hc).1 (h.unique hc' (hold hc).2 ▸ hr')
  · intro c
    rw [h.marks c]
    constructor
    · rintro (hc | ⟨r, hr⟩)
      · exact .inl (.inl hc)
      · by_cases e : r ∈ S
        · exact .inl (.inr ⟨r, e, hr⟩)
        · exact .inr ⟨r, (hout r e).trans hr⟩
    · rintro ((hc | ⟨r, _, hr⟩) | ⟨r, hr⟩)
      · exact .inl hc
      · exact .inr ⟨r, hr⟩
      · exact .inr ⟨r, (hold hr).2⟩

end Ledger

end Xv6.Lib
