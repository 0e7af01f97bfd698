/-
  Timely/Library/Grounded.lean
  ============================
  **Deeds that keep a ledger grounded.**

  A party holds something at some points, and acts: it takes things away, reveals what
  it holds or has taken, and adds things strictly beyond what it has revealed.  Only
  the sum of its changes is reported, in which a gain may have lost the thing that
  it came from.  But whatever the deeds and their order, each gain in the sum has
  something that was held at first, or is taken away in the sum, at the point
  or strictly before.
-/
import Timely.Library.Justification
import Timely.Library.Run

set_option linter.unusedSectionVars false

namespace Library

variable {Point : Type*}

/-- Something was held at first, or is taken away, at the point or strictly before. -/
def Grounded (lt : Point → Point → Prop) (held change : Point → ℤ) (p : Point) : Prop :=
  ∃ q, (q = p ∨ lt q p) ∧ (0 < held q ∨ change q < 0)

/-- What a party has changed since it last reported, and the points that it has revealed. -/
structure Ledger (Point : Type*) where
  change : Point → ℤ
  revealed : Point → Prop

/-- The deeds of a party.  It owns some points, at which nothing is taken that is not held. -/
inductive Deed (Point : Type*) where
  | take (p : Point) (amount : ℤ)
  | drop (p : Point)
  | copy (p : Point)
  | reveal (p : Point)
  | raise (q p : Point) (amount : ℤ)

section Deeds

variable [DecidableEq Point] (own : Point → Prop) (lt : Point → Point → Prop) (held : Point → ℤ)

/-- Change the sum at one point. -/
def Ledger.add (ledger : Ledger Point) (p : Point) (amount : ℤ) : Ledger Point :=
  { ledger with change := fun q => ledger.change q + if q = p then amount else 0 }

/-- Reveal one more point. -/
def Ledger.with_revealed (ledger : Ledger Point) (p : Point) : Ledger Point :=
  { ledger with revealed := fun q => q = p ∨ ledger.revealed q }

/-- What a party may do. -/
inductive Deed.Done : Ledger Point → Deed Point → Ledger Point → Prop
  | take {ledger : Ledger Point} {p : Point} {amount : ℤ} : ¬ own p → 0 < amount →
      Deed.Done ledger (.take p amount) ((ledger.add p (-amount)).with_revealed p)
  | drop {ledger : Ledger Point} {p : Point} : own p → 0 < held p + ledger.change p →
      Deed.Done ledger (.drop p) (ledger.add p (-1))
  | copy {ledger : Ledger Point} {p : Point} : own p → 0 < held p + ledger.change p →
      Deed.Done ledger (.copy p) (ledger.add p 1)
  | reveal {ledger : Ledger Point} {p : Point} : own p → 0 < held p + ledger.change p →
      Deed.Done ledger (.reveal p) (ledger.with_revealed p)
  | raise {ledger : Ledger Point} {q p : Point} {amount : ℤ} : ledger.revealed q → lt q p → 0 ≤ amount →
      Deed.Done ledger (.raise q p amount) (ledger.add p amount)

/-- All gains and all points that have been revealed are grounded, and no more is gone than was held. -/
structure Grounds (ledger : Ledger Point) : Prop where
  gains : ∀ p, 0 < ledger.change p → Grounded lt held ledger.change p
  reveals : ∀ p, ledger.revealed p → Grounded lt held ledger.change p
  holds : ∀ p, own p → 0 ≤ held p + ledger.change p

end Deeds

theorem Ledger.add_self [DecidableEq Point] (ledger : Ledger Point) (p : Point) (amount : ℤ) :
    (ledger.add p amount).change p = ledger.change p + amount := by
  change ledger.change p + (if p = p then amount else 0) = _
  rw [if_pos rfl]

theorem Ledger.add_of_ne [DecidableEq Point] (ledger : Ledger Point) {p q : Point} (amount : ℤ)
    (h : q ≠ p) : (ledger.add p amount).change q = ledger.change q := by
  change ledger.change q + (if q = p then amount else 0) = _
  rw [if_neg h, add_zero]

variable {own : Point → Prop} {lt : Point → Point → Prop} {held : Point → ℤ}

/-- Where nothing has been done, nothing was held less than no times. -/
theorem grounds_of_nothing {ledger : Ledger Point} (hchange : ∀ p, ledger.change p = 0)
    (hrevealed : ∀ p, ¬ ledger.revealed p) (hheld : ∀ p, own p → 0 ≤ held p) : Grounds own lt held ledger where
  gains p hpos := by
    rw [hchange] at hpos
    exact absurd hpos (lt_irrefl 0)
  reveals p hreveal := absurd hreveal (hrevealed p)
  holds p hown := by
    rw [hchange, add_zero]
    exact hheld p hown

/-- What has been revealed may be forgotten. -/
theorem Grounds.forget {ledger : Ledger Point} (h : Grounds own lt held ledger) {change : Point → ℤ}
    (hchange : ∀ p, ledger.change p = change p) : Grounds own lt held ⟨change, fun _ => False⟩ := by
  obtain rfl : ledger.change = change := funext hchange
  exact ⟨h.gains, fun _ hreveal => absurd hreveal id, h.holds⟩

/-- The gains of a ledger that is grounded are supported. -/
theorem Grounds.supported {ledger : Ledger Point} (h : Grounds own lt held ledger) :
    Supported lt held ledger.change := by
  intro p hpos
  obtain ⟨q, rfl | hlt, hheld | hneg⟩ := h.gains p hpos
  · exact Or.inr (Or.inr hheld)
  · exact absurd hpos hneg.not_gt
  · exact Or.inr (Or.inl ⟨q, hlt, hheld⟩)
  · exact Or.inl ⟨q, hlt, hneg⟩

/-- What is live has been held at first, or has been gained. -/
theorem Grounds.grounded_of_live {ledger : Ledger Point} (h : Grounds own lt held ledger) {p : Point}
    (hlive : 0 < held p + ledger.change p) : Grounded lt held ledger.change p := by
  by_cases hheld : 0 < held p
  · exact ⟨p, Or.inl rfl, Or.inl hheld⟩
  · exact h.gains p (by omega)

section Steps

variable [DecidableEq Point] {ledger after : Ledger Point} {p q r : Point} {amount : ℤ}

/-- Less at a point keeps what is grounded. -/
theorem Grounded.lower (h : Grounded lt held ledger.change q) (hamount : amount ≤ 0) :
    Grounded lt held (ledger.add p amount).change q := by
  obtain ⟨r, hr, hheld | hneg⟩ := h
  · exact ⟨r, hr, Or.inl hheld⟩
  · refine ⟨r, hr, Or.inr ?_⟩
    by_cases hsame : r = p
    · subst hsame
      rw [Ledger.add_self]
      omega
    · rwa [Ledger.add_of_ne _ _ hsame]

/-- A point may gain that has a ground other than what is taken away there: what was grounded by this
    has the other ground then. -/
theorem Grounded.raise [IsStrictOrder Point lt] (h : Grounded lt held ledger.change q)
    (hr : r = p ∨ lt r p) (hground : 0 < held r ∨ (r ≠ p ∧ ledger.change r < 0)) :
    Grounded lt held (ledger.add p amount).change q := by
  have hkept : 0 < held r ∨ (ledger.add p amount).change r < 0 := by
    refine hground.imp id fun hneg => ?_
    rw [Ledger.add_of_ne _ _ hneg.1]
    exact hneg.2
  obtain ⟨s, hs, hheld | hneg⟩ := h
  · exact ⟨s, hs, Or.inl hheld⟩
  · by_cases hsame : s = p
    · subst hsame
      refine ⟨r, ?_, hkept⟩
      rcases hr with rfl | hr
      · exact hs
      · rcases hs with rfl | hs
        · exact Or.inr hr
        · exact Or.inr (trans_of lt hr hs)
    · refine ⟨s, hs, Or.inr ?_⟩
      rw [Ledger.add_of_ne _ _ hsame]
      exact hneg

/-- Adding what has a ground other than what is taken away at the same point. -/
theorem Grounds.add_grounded [IsStrictOrder Point lt] (h : Grounds own lt held ledger)
    (hr : r = p ∨ lt r p) (hground : 0 < held r ∨ (r ≠ p ∧ ledger.change r < 0)) (hamount : 0 ≤ amount) :
    Grounds own lt held (ledger.add p amount) where
  gains q hpos := by
    by_cases hsame : q = p
    · subst hsame
      refine ⟨r, hr, hground.imp id fun hneg => ?_⟩
      rw [Ledger.add_of_ne _ _ hneg.1]
      exact hneg.2
    · rw [Ledger.add_of_ne _ _ hsame] at hpos
      exact (h.gains q hpos).raise hr hground
  reveals q hreveal := (h.reveals q hreveal).raise hr hground
  holds q hown := by
    have hholds := h.holds q hown
    by_cases hsame : q = p
    · subst hsame
      rw [Ledger.add_self]
      omega
    · rwa [Ledger.add_of_ne _ _ hsame]

/-- Taking away what is not held less than no times then. -/
theorem Grounds.add_lower (h : Grounds own lt held ledger) (hamount : amount ≤ 0)
    (hholds : own p → 0 ≤ held p + ledger.change p + amount) :
    Grounds own lt held (ledger.add p amount) where
  gains q hpos := by
    have hbefore : 0 < ledger.change q := by
      by_cases hsame : q = p
      · subst hsame
        rw [Ledger.add_self] at hpos
        omega
      · rwa [Ledger.add_of_ne _ _ hsame] at hpos
    exact (h.gains q hbefore).lower hamount
  reveals q hreveal := (h.reveals q hreveal).lower hamount
  holds q hown := by
    by_cases hsame : q = p
    · subst hsame
      rw [Ledger.add_self, ← add_assoc]
      exact hholds hown
    · rw [Ledger.add_of_ne _ _ hsame]
      exact h.holds q hown

theorem Grounds.with_revealed (h : Grounds own lt held ledger) (hp : Grounded lt held ledger.change p) :
    Grounds own lt held (ledger.with_revealed p) where
  gains := h.gains
  reveals q hreveal := by
    rcases hreveal with rfl | hold
    · exact hp
    · exact h.reveals q hold
  holds := h.holds

/-- A deed keeps a ledger grounded. -/
theorem Grounds.done [IsStrictOrder Point lt] (h : Grounds own lt held ledger) {deed : Deed Point}
    (hdone : deed.Done own lt held ledger after) : Grounds own lt held after := by
  cases hdone with
  | @take p amount hown hamount =>
    refine (h.add_lower (by omega) fun hcontra => absurd hcontra hown).with_revealed ?_
    -- what is taken away is a ground of its own, or less than what has been gained
    by_cases hpos : 0 < ledger.change p
    · exact (h.gains p hpos).lower (by omega)
    · refine ⟨p, Or.inl rfl, Or.inr ?_⟩
      rw [Ledger.add_self]
      omega
  | drop hown hlive => exact h.add_lower (by omega) fun _ => by omega
  | @copy p hown hlive =>
    by_cases hheld : 0 < held p
    · exact h.add_grounded (Or.inl rfl) (Or.inl hheld) Int.one_nonneg
    · -- the copy has the ground of what has been gained
      have hgain : 0 < ledger.change p := by omega
      obtain ⟨r, hr, hground⟩ := h.gains p hgain
      refine h.add_grounded hr (hground.imp id fun hneg => ⟨?_, hneg⟩) Int.one_nonneg
      rintro rfl
      omega
  | reveal hown hlive => exact h.with_revealed (h.grounded_of_live hlive)
  | @raise q p amount hrevealed hlt hamount =>
    obtain ⟨r, hr, hground⟩ := h.reveals q hrevealed
    have hbefore : lt r p := lt_of_eq_or_lt hr hlt
    refine h.add_grounded (Or.inr hbefore) (hground.imp id fun hneg => ⟨?_, hneg⟩) hamount
    rintro rfl
    exact irrefl_of lt r hbefore

/-- So does any number of deeds. -/
theorem Grounds.run [IsStrictOrder Point lt] (h : Grounds own lt held ledger) {deeds : List (Deed Point)}
    (hrun : Run (fun before deed after => Deed.Done own lt held before deed after) ledger deeds after) :
    Grounds own lt held after :=
  hrun.invariant (P := fun _ last => Grounds own lt held last) h fun hbefore hdone => hbefore.done hdone

end Steps

end Library
