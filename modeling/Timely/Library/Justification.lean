/-
  Timely/Library/Justification.lean
  =================================
  **Counts assembled from prefixes of justified histories.**

  Parties change the counts of points, and report their changes in batches.  A
  party owns some of what is counted: it adds to a count when it holds something
  there or strictly below, or takes something away strictly below.  Then a view
  that is made up of any prefixes of the histories is safe: where something
  exists, a point at or below it has a positive count in the view.  And no view
  that extends another one has positive counts which that one did not announce.
-/
import Timely.Library.Tally
import Mathlib.Algebra.BigOperators.Finsupp.Basic
import Mathlib.Algebra.Order.BigOperators.Group.Finset
import Mathlib.Order.WellFoundedSet
import Mathlib.Tactic.Linarith
import Mathlib.Data.Finsupp.Basic
import Mathlib.Tactic.Ring

set_option linter.unusedSectionVars false

namespace Library

variable {Point : Type*} (lt : Point → Point → Prop)

/-! ### Justified information -/

/-- Where the information is positive, it is negative somewhere below, or something is held below, or
    more is held at the point itself. -/
def Justified (held info : Point → ℤ) : Prop :=
  ∀ p, 0 < info p → (∃ q, lt q p ∧ info q < 0) ∨ (∃ q, lt q p ∧ 0 < held q) ∨ info p < held p

/-- A change adds where it takes something away below, or something is held there or below. -/
def Supported (held change : Point → ℤ) : Prop :=
  ∀ p, 0 < change p → (∃ q, lt q p ∧ change q < 0) ∨ (∃ q, lt q p ∧ 0 < held q) ∨ 0 < held p

/-- Information with a change added to it, and what is held before and after the change. -/
structure Changed (own : Point → Prop) (held info change held' info' : Point → ℤ) : Prop where
  justified : Justified lt held info
  supported : Supported lt held change
  adds : ∀ p, info' p = info p + change p
  holds : ∀ p, own p → held' p = held p + change p
  owned : ∀ p, 0 < held p → own p
  finite : {p | held p ≠ 0 ∨ info p ≠ 0 ∨ change p ≠ 0}.Finite

variable {lt}

theorem justified_zero (held : Point → ℤ) : Justified lt held 0 :=
  fun _ hpos => absurd hpos (lt_irrefl _)

section Change

variable [IsStrictOrder Point lt] {held info change held' info' : Point → ℤ} {own : Point → Prop}

theorem lt_of_eq_or_lt {p q r : Point} (h : p = q ∨ lt p q) (h' : lt q r) : lt p r := by
  rcases h with rfl | h
  · exact h'
  · exact trans_of lt h h'

/-- Where information was negative, or something was taken away or held, information is negative or
    something is held after the change, there or below. -/
theorem Changed.exists_below (h : Changed lt own held info change held' info') {p : Point}
    (hp : info p < 0 ∨ change p < 0 ∨ 0 < held p) :
    ∃ q, (q = p ∨ lt q p) ∧ (info' q < 0 ∨ 0 < held' q) := by
  have hmem : ∀ {q}, info q < 0 ∨ change q < 0 ∨ 0 < held q →
      q ∈ {p | held p ≠ 0 ∨ info p ≠ 0 ∨ change p ≠ 0} := by
    rintro q (hneg | hneg | hpos)
    · exact Or.inr (Or.inl hneg.ne)
    · exact Or.inr (Or.inr hneg.ne)
    · exact Or.inl hpos.ne'
  -- by induction along the order, which is well-founded where anything is counted
  refine (h.finite.wellFoundedOn (r := lt)).induction (hmem hp) (P := fun p =>
    (info p < 0 ∨ change p < 0 ∨ 0 < held p) →
      ∃ q, (q = p ∨ lt q p) ∧ (info' q < 0 ∨ 0 < held' q)) ?_ hp
  intro p _ ih hp
  have hlower : ∀ {q}, lt q p → info q < 0 ∨ change q < 0 ∨ 0 < held q →
      ∃ q, (q = p ∨ lt q p) ∧ (info' q < 0 ∨ 0 < held' q) := by
    intro q hq hany
    obtain ⟨r, hr, hgoal⟩ := ih q (hmem hany) hq hany
    exact ⟨r, Or.inr (lt_of_eq_or_lt hr hq), hgoal⟩
  have hadds := h.adds p
  by_cases hnegative : info' p < 0
  · exact ⟨p, Or.inl rfl, Or.inl hnegative⟩
  have htaken : change p < 0 → ∃ q, (q = p ∨ lt q p) ∧ (info' q < 0 ∨ 0 < held' q) := by
    intro hchange
    rcases h.justified p (by linarith) with ⟨q, hq, hinfo⟩ | ⟨q, hq, hheld⟩ | hless
    · exact hlower hq (Or.inl hinfo)
    · exact hlower hq (Or.inr (Or.inr hheld))
    · -- more was held than the information says, and that much is left
      have hholds := h.holds p (h.owned p (by linarith))
      exact ⟨p, Or.inl rfl, Or.inr (by linarith)⟩
  rcases hp with hinfo | hchange | hheld
  · rcases h.supported p (by linarith) with ⟨q, hq, hchange⟩ | ⟨q, hq, hheld⟩ | hheld
    · exact hlower hq (Or.inr (Or.inl hchange))
    · exact hlower hq (Or.inr (Or.inr hheld))
    · have hholds := h.holds p (h.owned p hheld)
      exact ⟨p, Or.inl rfl, Or.inr (by linarith)⟩
  · exact htaken hchange
  · by_cases hchange : change p < 0
    · exact htaken hchange
    · have hholds := h.holds p (h.owned p hheld)
      exact ⟨p, Or.inl rfl, Or.inr (by linarith)⟩

/-- A supported change keeps information justified. -/
theorem Changed.justified_after (h : Changed lt own held info change held' info') :
    Justified lt held' info' := by
  intro p hpos
  have hlower : ∀ {q}, lt q p → info q < 0 ∨ change q < 0 ∨ 0 < held q →
      (∃ q, lt q p ∧ info' q < 0) ∨ (∃ q, lt q p ∧ 0 < held' q) ∨ info' p < held' p := by
    intro q hq hany
    obtain ⟨r, hr, hneg | hheld⟩ := h.exists_below hany
    · exact Or.inl ⟨r, lt_of_eq_or_lt hr hq, hneg⟩
    · exact Or.inr (Or.inl ⟨r, lt_of_eq_or_lt hr hq, hheld⟩)
  have hadds := h.adds p
  -- the information that was there before is justified, or there was none
  have hbefore : 0 < info p →
      (∃ q, lt q p ∧ info' q < 0) ∨ (∃ q, lt q p ∧ 0 < held' q) ∨ info' p < held' p := by
    intro hinfo
    rcases h.justified p hinfo with ⟨q, hq, hneg⟩ | ⟨q, hq, hheld⟩ | hless
    · exact hlower hq (Or.inl hneg)
    · exact hlower hq (Or.inr (Or.inr hheld))
    · have hholds := h.holds p (h.owned p (by linarith))
      exact Or.inr (Or.inr (by linarith))
  by_cases hinfo : 0 < info p
  · exact hbefore hinfo
  · rcases h.supported p (by linarith) with ⟨q, hq, hchange⟩ | ⟨q, hq, hheld⟩ | hheld
    · exact hlower hq (Or.inr (Or.inl hchange))
    · exact hlower hq (Or.inr (Or.inr hheld))
    · have hholds := h.holds p (h.owned p hheld)
      exact Or.inr (Or.inr (by linarith))

end Change

/-! ### Histories -/

/-- What a party holds after a history of batches: what it was granted, and what it has added since, of
    the points it owns. -/
noncomputable def holding (own : Point → Prop) [DecidablePred own] (granted : Point →₀ ℤ)
    (batches : List (Point →₀ ℤ)) (p : Point) : ℤ :=
  if own p then granted p + batches.sum p else 0

variable (lt) in
/-- All that a party has reported between any two batches is justified by what it held then. -/
def History (own : Point → Prop) [DecidablePred own] (granted : Point →₀ ℤ)
    (batches : List (Point →₀ ℤ)) : Prop :=
  ∀ before segment after, batches = before ++ segment ++ after →
    Justified lt (holding own granted (before ++ segment)) segment.sum

theorem history_nil {lt : Point → Point → Prop} {own : Point → Prop} [DecidablePred own]
    {granted : Point →₀ ℤ} : History lt own granted [] := by
  intro before segment after h
  obtain ⟨hboth, rfl⟩ := List.append_eq_nil_iff.mp h.symm
  obtain ⟨rfl, rfl⟩ := List.append_eq_nil_iff.mp hboth
  exact justified_zero _

section History

variable [IsStrictOrder Point lt] {own : Point → Prop} [DecidablePred own] {granted : Point →₀ ℤ}
  {batches : List (Point →₀ ℤ)} {last change : Point →₀ ℤ}

theorem owned_of_holding {p : Point} (h : 0 < holding own granted batches p) : own p := by
  unfold holding at h
  by_contra hnot
  rw [if_neg hnot] at h
  exact lt_irrefl _ h

theorem finite_holding (granted : Point →₀ ℤ) (batches : List (Point →₀ ℤ)) :
    {p | holding own granted batches p ≠ 0}.Finite := by
  refine (granted + batches.sum).hasFiniteSupport.subset fun p hp => ?_
  change holding own granted batches p ≠ 0 at hp
  unfold holding at hp
  split at hp
  · exact hp
  · exact absurd rfl hp

theorem holding_append (before after : List (Point →₀ ℤ)) {p : Point} (hown : own p) :
    holding own granted (before ++ after) p = holding own granted before p + after.sum p := by
  unfold holding
  rw [if_pos hown, if_pos hown, List.sum_append, Finsupp.add_apply, add_assoc]

/-- A division of a list with one more item is one of the list, or its last segment takes the item. -/
theorem append_cases {α : Type*} {items before segment after : List α} {item : α}
    (h : items ++ [item] = before ++ segment ++ after) :
    (∃ rest, after = rest ++ [item] ∧ items = before ++ segment ++ rest) ∨
      (after = [] ∧ segment = []) ∨
      ∃ rest, after = [] ∧ segment = rest ++ [item] ∧ items = before ++ rest := by
  rcases List.eq_nil_or_concat after with rfl | ⟨rest, final, rfl⟩
  · right
    rw [List.append_nil] at h
    rcases List.eq_nil_or_concat segment with rfl | ⟨rest, final, rfl⟩
    · exact Or.inl ⟨rfl, rfl⟩
    · rw [List.concat_eq_append, ← List.append_assoc] at h
      obtain ⟨hitems, hlast⟩ := List.append_inj' h rfl
      obtain rfl := List.singleton_inj.mp hlast
      exact Or.inr ⟨rest, rfl, List.concat_eq_append, hitems⟩
  · left
    rw [List.concat_eq_append, ← List.append_assoc] at h
    obtain ⟨hitems, hlast⟩ := List.append_inj' h rfl
    obtain rfl := List.singleton_inj.mp hlast
    exact ⟨rest, List.concat_eq_append, hitems⟩

/-- A batch without changes. -/
theorem History.snoc_zero (h : History lt own granted batches) :
    History lt own granted (batches ++ [0]) := by
  intro before segment after hsplit
  rcases append_cases hsplit with ⟨rest, _, hitems⟩ | ⟨_, rfl⟩ | ⟨rest, _, rfl, hitems⟩
  · exact h before segment rest hitems
  · exact justified_zero _
  · have hsum : (rest ++ [0]).sum = rest.sum := by
      rw [List.sum_append, List.sum_singleton, add_zero]
    have hholding : holding own granted (before ++ (rest ++ [0])) =
        holding own granted (before ++ rest) := by
      funext p
      unfold holding
      rw [List.sum_append, hsum, List.sum_append]
    rw [hsum, hholding]
    exact h before rest [] (by rw [List.append_nil, hitems])

/-- A supported change to the last batch. -/
theorem History.change_last (h : History lt own granted (batches ++ [last]))
    (hsupported : Supported lt (holding own granted (batches ++ [last])) change) :
    History lt own granted (batches ++ [last + change]) := by
  intro before segment after hsplit
  rcases append_cases hsplit with ⟨rest, _, hitems⟩ | ⟨_, rfl⟩ | ⟨rest, _, rfl, hitems⟩
  · -- the change comes later
    refine h before segment (rest ++ [last]) ?_
    rw [hitems, List.append_assoc]
  · exact justified_zero _
  · -- the change ends the segment
    have hbefore : batches ++ [last] = before ++ (rest ++ [last]) := by
      rw [hitems, List.append_assoc]
    have hchanged : Changed lt own (holding own granted (batches ++ [last])) (rest ++ [last]).sum change
        (holding own granted (before ++ (rest ++ [last + change]))) (rest ++ [last + change]).sum := by
      refine ⟨?_, hsupported, fun p => ?_, fun p hown => ?_, fun p => owned_of_holding, ?_⟩
      · rw [hbefore]
        exact h before (rest ++ [last]) [] (by rw [List.append_nil, ← hbefore])
      · simp only [List.sum_append, List.sum_singleton, Finsupp.add_apply]
        ring
      · rw [hbefore, holding_append before _ hown, holding_append before _ hown]
        simp only [List.sum_append, List.sum_singleton, Finsupp.add_apply]
        ring
      · exact (finite_holding granted _).union ((rest ++ [last]).sum.hasFiniteSupport.union
          change.hasFiniteSupport)
    exact hchanged.justified_after

/-- One more batch, which is supported by what has been held before it. -/
theorem History.snoc (h : History lt own granted batches)
    (hsupported : Supported lt (holding own granted batches) change) :
    History lt own granted (batches ++ [change]) := by
  have hzero : holding own granted (batches ++ [0]) = holding own granted batches := by
    funext p
    rw [holding, holding, List.sum_append, List.sum_singleton, add_zero]
  rw [← hzero] at hsupported
  have hlast := h.snoc_zero.change_last hsupported
  rwa [zero_add] at hlast

end History

theorem sum_apply_eq_zero {batches : List (Point →₀ ℤ)} {p : Point}
    (h : ∀ batch ∈ batches, batch p = 0) : batches.sum p = 0 := by
  induction batches with
  | nil => rfl
  | cons batch batches ih =>
    obtain ⟨hfirst, hrest⟩ := List.forall_mem_cons.mp h
    rw [List.sum_cons, Finsupp.add_apply, hfirst, ih hrest, add_zero]

/-! ### Histories of some of the points -/

section Filter

variable {keep own : Point → Prop} [DecidablePred keep] [DecidablePred own] {granted : Point →₀ ℤ}

theorem sum_map_filter (batches : List (Point →₀ ℤ)) (p : Point) :
    (batches.map (Finsupp.filter keep)).sum p = if keep p then batches.sum p else 0 := by
  induction batches with
  | nil =>
    rw [List.map_nil, List.sum_nil, Finsupp.zero_apply, ite_self]
  | cons batch batches ih =>
    rw [List.map_cons, List.sum_cons, List.sum_cons, Finsupp.add_apply, ih, Finsupp.filter_apply,
      Finsupp.add_apply]
    split
    · rfl
    · exact add_zero 0

theorem holding_filter (batches : List (Point →₀ ℤ)) (p : Point) :
    holding own (granted.filter keep) (batches.map (Finsupp.filter keep)) p =
      if keep p then holding own granted batches p else 0 := by
  rw [holding, holding, sum_map_filter, Finsupp.filter_apply]
  by_cases hkeep : keep p
  · rw [if_pos hkeep, if_pos hkeep, if_pos hkeep]
  · rw [if_neg hkeep, if_neg hkeep, if_neg hkeep, add_zero, ite_self]

/-- Support for what is kept is kept. -/
theorem Supported.filter {lt lt' : Point → Point → Prop} {held : Point → ℤ} {change : Point →₀ ℤ}
    (h : Supported lt held change)
    (hkeep : ∀ {q p}, lt q p → change q < 0 ∨ 0 < held q → keep p → lt' q p ∧ keep q) :
    Supported lt' (fun p => if keep p then held p else 0) (change.filter keep) := by
  intro p hpos
  rw [Finsupp.filter_apply] at hpos
  by_cases hp : keep p
  · rw [if_pos hp] at hpos
    rcases h p hpos with ⟨q, hq, hneg⟩ | ⟨q, hq, hheld⟩ | hheld
    · obtain ⟨hlt, hkept⟩ := hkeep hq (Or.inl hneg) hp
      refine Or.inl ⟨q, hlt, ?_⟩
      rw [Finsupp.filter_apply, if_pos hkept]
      exact hneg
    · obtain ⟨hlt, hkept⟩ := hkeep hq (Or.inr hheld) hp
      exact Or.inr (Or.inl ⟨q, hlt, hheld.trans_eq (if_pos hkept).symm⟩)
    · exact Or.inr (Or.inr (hheld.trans_eq (if_pos hp).symm))
  · rw [if_neg hp] at hpos
    exact absurd hpos (lt_irrefl 0)

end Filter

/-! ### Batches written as lists of updates -/

section Collect

variable [DecidableEq Point]

/-- The changes that a list of updates holds. -/
noncomputable def collect (updates : List (Point × ℤ)) : Point →₀ ℤ :=
  Finsupp.ofSupportFinite (tally updates) (by
    refine (List.finite_toSet (updates.map Prod.fst)).subset fun p hp => ?_
    obtain ⟨update, hupdate, hkey⟩ := exists_mem_of_tally_ne_zero hp
    exact List.mem_map.mpr ⟨update, hupdate, hkey⟩)

@[simp] theorem collect_apply (updates : List (Point × ℤ)) (p : Point) :
    collect updates p = tally updates p := rfl

theorem collect_congr {first second : List (Point × ℤ)} (h : ∀ p, tally first p = tally second p) :
    collect first = collect second :=
  Finsupp.ext h

theorem sum_map_collect (batches : List (List (Point × ℤ))) (p : Point) :
    (batches.map collect).sum p = tally batches.flatten p := by
  induction batches with
  | nil => rfl
  | cons batch batches ih =>
    rw [List.map_cons, List.sum_cons, Finsupp.add_apply, ih, List.flatten_cons, tally_append,
      collect_apply]

end Collect

/-! ### Views -/

section Views

variable {Party : Type*} [Fintype Party] {own : Point → Prop} [DecidablePred own]
  {granted : Party → Point →₀ ℤ} {histories seen more unseen : Party → List (Point →₀ ℤ)}

/-- What all parties were granted, with the changes that have been seen of each. -/
noncomputable def total (granted : Party → Point →₀ ℤ) (seen : Party → List (Point →₀ ℤ))
    (p : Point) : ℤ :=
  ∑ party, (granted party p + (seen party).sum p)

theorem total_append (granted : Party → Point →₀ ℤ) (seen unseen : Party → List (Point →₀ ℤ))
    (p : Point) : total granted (fun party => seen party ++ unseen party) p =
      total granted seen p + ∑ party, (unseen party).sum p := by
  unfold total
  rw [← Finset.sum_add_distrib]
  refine Finset.sum_congr rfl fun party _ => ?_
  rw [List.sum_append, Finsupp.add_apply, add_assoc]

theorem total_filter {keep : Point → Prop} [DecidablePred keep] (granted : Party → Point →₀ ℤ)
    (seen : Party → List (Point →₀ ℤ)) (p : Point) :
    total (fun party => (granted party).filter keep)
        (fun party => (seen party).map (Finsupp.filter keep)) p =
      if keep p then total granted seen p else 0 := by
  unfold total
  simp only [sum_map_filter, Finsupp.filter_apply]
  split
  · rfl
  · simp only [add_zero, Finset.sum_const_zero]

variable (lt own granted histories) in
/-- Parties with justified histories, and nothing that is held or exists less than no times. -/
structure Histories : Prop where
  history : ∀ party, History lt own (granted party) (histories party)
  holds : ∀ party p, 0 ≤ holding own (granted party) (histories party) p
  exist : ∀ p, 0 ≤ total granted histories p

variable [IsStrictOrder Point lt]

/-- What is held exists. -/
theorem Histories.sum_holding_le (h : Histories lt own granted histories) (p : Point) :
    ∑ party, holding own (granted party) (histories party) p ≤ total granted histories p := by
  by_cases hown : own p
  · refine le_of_eq (Finset.sum_congr rfl fun party _ => ?_)
    exact if_pos hown
  · have hnothing : ∀ party ∈ Finset.univ, holding own (granted party) (histories party) p = 0 :=
      fun party _ => if_neg hown
    rw [Finset.sum_eq_zero hnothing]
    exact h.exist p

theorem Histories.holding_le (h : Histories lt own granted histories) (party : Party) (p : Point) :
    holding own (granted party) (histories party) p ≤ total granted histories p :=
  (Finset.single_le_sum (f := fun party => holding own (granted party) (histories party) p)
    (fun other _ => h.holds other p) (Finset.mem_univ party)).trans (h.sum_holding_le p)

/-- The information that a view misses is justified by what is held. -/
theorem Histories.justified (h : Histories lt own granted histories)
    (hsplit : ∀ party, histories party = seen party ++ unseen party) (party : Party) :
    Justified lt (holding own (granted party) (histories party)) (unseen party).sum := by
  have hhistory := h.history party (seen party) (unseen party) [] (by rw [List.append_nil, hsplit])
  rwa [← hsplit] at hhistory

/-- Where a view has no positive count, and something exists or the view misses that something was taken
    away, it misses more of some party than that party holds. -/
theorem Histories.exists_missed (h : Histories lt own granted histories)
    (hsplit : ∀ party, histories party = seen party ++ unseen party) {p : Point}
    (hcount : total granted seen p ≤ 0)
    (hp : 0 < total granted histories p ∨ ∃ party, (unseen party).sum p < 0) :
    ∃ party, 0 < (unseen party).sum p ∧
      holding own (granted party) (histories party) p ≤ (unseen party).sum p := by
  have htotal := total_append granted seen unseen p
  rw [← funext hsplit] at htotal
  have hheld := h.sum_holding_le p
  by_contra hnone
  have hless : ∀ party, (unseen party).sum p ≤ 0 ∨
      (unseen party).sum p < holding own (granted party) (histories party) p := by
    intro party
    by_contra hboth
    obtain ⟨hpos, hle⟩ := not_or.mp hboth
    exact hnone ⟨party, not_le.mp hpos, not_lt.mp hle⟩
  have hle : ∀ party, (unseen party).sum p ≤ holding own (granted party) (histories party) p := by
    intro party
    rcases hless party with hnegative | hlt
    · exact hnegative.trans (h.holds party p)
    · exact hlt.le
  -- the sums are equal, and so are the summands
  have hsum : ∑ party, (unseen party).sum p =
      ∑ party, holding own (granted party) (histories party) p :=
    le_antisymm (Finset.sum_le_sum fun party _ => hle party) (by linarith)
  have hequal : ∀ party, (unseen party).sum p = holding own (granted party) (histories party) p :=
    fun party => (Finset.sum_eq_sum_iff_of_le fun party _ => hle party).mp hsum party
      (Finset.mem_univ party)
  have hnothing : ∀ party, (unseen party).sum p = 0 := by
    intro party
    rcases hless party with hnegative | hlt
    · exact le_antisymm hnegative (hequal party ▸ h.holds party p)
    · exact absurd (hequal party) hlt.ne
  rcases hp with hexists | ⟨party, hnegative⟩
  · rw [Finset.sum_eq_zero fun party _ => hnothing party] at htotal
    linarith
  · exact absurd (hnothing party) hnegative.ne

theorem finite_unseen (unseen : Party → List (Point →₀ ℤ)) :
    {p | ∃ party, (unseen party).sum p ≠ 0}.Finite := by
  have hunion : {p | ∃ party, (unseen party).sum p ≠ 0} =
      ⋃ party, {p | (unseen party).sum p ≠ 0} := by
    ext p
    rw [Set.mem_iUnion]
    exact Iff.rfl
  rw [hunion]
  exact Set.finite_iUnion fun party => (unseen party).sum.hasFiniteSupport

theorem finite_total (granted : Party → Point →₀ ℤ) (seen : Party → List (Point →₀ ℤ)) :
    {p | total granted seen p ≠ 0}.Finite := by
  refine (∑ party, (granted party + (seen party).sum)).hasFiniteSupport.subset fun p hp => ?_
  change (∑ party, (granted party + (seen party).sum)) p ≠ 0
  rw [Finsupp.finsetSum_apply]
  exact hp

/-- A view is safe: where something exists, it has a positive count there or below. -/
theorem Histories.safe (h : Histories lt own granted histories)
    (hsplit : ∀ party, histories party = seen party ++ unseen party) {p : Point}
    (hp : 0 < total granted histories p) :
    ∃ q, (q = p ∨ lt q p) ∧ 0 < total granted seen q := by
  have hfinite := (finite_total granted histories).union (finite_unseen unseen)
  have hmem : ∀ {q}, (0 < total granted histories q ∨ ∃ party, (unseen party).sum q < 0) →
      q ∈ {p | total granted histories p ≠ 0} ∪ {p | ∃ party, (unseen party).sum p ≠ 0} := by
    rintro q (hexists | ⟨party, hnegative⟩)
    · exact Or.inl hexists.ne'
    · exact Or.inr ⟨party, hnegative.ne⟩
  -- by induction along the order; what is missed leads to something that exists or is missed below
  refine (hfinite.wellFoundedOn (r := lt)).induction (hmem (Or.inl hp)) (P := fun p =>
    (0 < total granted histories p ∨ ∃ party, (unseen party).sum p < 0) →
      ∃ q, (q = p ∨ lt q p) ∧ 0 < total granted seen q) ?_ (Or.inl hp)
  intro p _ ih hp
  by_cases hcount : 0 < total granted seen p
  · exact ⟨p, Or.inl rfl, hcount⟩
  have hlower : ∀ {q}, lt q p → (0 < total granted histories q ∨ ∃ party, (unseen party).sum q < 0) →
      ∃ q, (q = p ∨ lt q p) ∧ 0 < total granted seen q := by
    intro q hq hany
    obtain ⟨r, hr, hpositive⟩ := ih q (hmem hany) hq hany
    exact ⟨r, Or.inr (lt_of_eq_or_lt hr hq), hpositive⟩
  obtain ⟨party, hmissed, hheld⟩ := h.exists_missed hsplit (not_lt.mp hcount) hp
  rcases h.justified hsplit party p hmissed with ⟨q, hq, hnegative⟩ | ⟨q, hq, hpositive⟩ | hless
  · exact hlower hq (Or.inr ⟨party, hnegative⟩)
  · exact hlower hq (Or.inl (hpositive.trans_le (h.holding_le party q)))
  · exact absurd hheld (not_le.mpr hless)

/-- Where a view has no positive count there or below, nothing exists and nothing is held. -/
theorem Histories.vacant (h : Histories lt own granted histories)
    (hsplit : ∀ party, histories party = seen party ++ unseen party) {p : Point}
    (hvacant : ∀ q, q = p ∨ lt q p → total granted seen q ≤ 0) :
    total granted histories p = 0 ∧ ∀ party, holding own (granted party) (histories party) p = 0 := by
  have htotal : total granted histories p = 0 := by
    refine le_antisymm (not_lt.mp fun hpos => ?_) (h.exist p)
    obtain ⟨q, hq, hcount⟩ := h.safe hsplit hpos
    exact absurd (hvacant q hq) (not_le.mpr hcount)
  exact ⟨htotal, fun party => le_antisymm (htotal ▸ h.holding_le party p) (h.holds party p)⟩

/-- Where a view has no positive count there or below, it misses nothing in sum. -/
theorem Histories.unseen_eq_zero (h : Histories lt own granted histories)
    (hsplit : ∀ party, histories party = seen party ++ unseen party) {p : Point}
    (hvacant : ∀ q, q = p ∨ lt q p → total granted seen q ≤ 0) (party : Party) :
    (unseen party).sum p = 0 := by
  by_contra hparty
  have hmem : p ∈ {p | ∃ party, (unseen party).sum p ≠ 0} := ⟨party, hparty⟩
  refine ((finite_unseen unseen).wellFoundedOn (r := lt)).induction hmem (P := fun p =>
    (∀ q, q = p ∨ lt q p → total granted seen q ≤ 0) → ¬ ∃ party, (unseen party).sum p ≠ 0) ?_
    hvacant ⟨party, hparty⟩
  rintro p _ ih hvacant ⟨party, hparty⟩
  have hbelow : ∀ q, lt q p → ∀ other, (unseen other).sum q = 0 := by
    intro q hq other
    by_contra hother
    exact ih q ⟨other, hother⟩ hq (fun r hr => hvacant r (Or.inr (lt_of_eq_or_lt hr hq)))
      ⟨other, hother⟩
  -- nobody adds here without something below
  have hnonpos : ∀ other, (unseen other).sum p ≤ 0 := by
    intro other
    by_contra hpos
    rcases h.justified hsplit other p (not_le.mp hpos) with ⟨q, hq, hneg⟩ | ⟨q, hq, hheld⟩ | hless
    · exact absurd (hbelow q hq other) hneg.ne
    · have hnothing := (h.vacant hsplit (p := q)
        fun r hr => hvacant r (Or.inr (lt_of_eq_or_lt hr hq))).2 other
      exact absurd hnothing hheld.ne'
    · rw [(h.vacant hsplit hvacant).2 other] at hless
      exact absurd (not_le.mp hpos) (not_lt.mpr hless.le)
  have htotal := total_append granted seen unseen p
  rw [← funext hsplit, (h.vacant hsplit hvacant).1] at htotal
  have hcount := hvacant p (Or.inl rfl)
  have hsum : ∑ other, (unseen other).sum p = 0 :=
    le_antisymm (Finset.sum_nonpos fun other _ => hnonpos other) (by linarith)
  exact hparty ((Finset.sum_eq_zero_iff_of_nonpos fun other _ => hnonpos other).mp hsum party
    (Finset.mem_univ party))

/-- A view that extends another one has a positive count only where the other one has one, there or
    below. -/
theorem Histories.announced (h : Histories lt own granted histories)
    (hsplit : ∀ party, histories party = seen party ++ more party ++ unseen party) {p : Point}
    (hp : 0 < total granted (fun party => seen party ++ more party) p) :
    ∃ q, (q = p ∨ lt q p) ∧ 0 < total granted seen q := by
  by_contra hnone
  have hvacant : ∀ q, q = p ∨ lt q p → total granted seen q ≤ 0 := by
    intro q hq
    by_contra hpos
    exact hnone ⟨q, hq, not_le.mp hpos⟩
  have hfirst : ∀ party, histories party = seen party ++ (more party ++ unseen party) := by
    intro party
    rw [hsplit, List.append_assoc]
  -- what comes after the second view adds up to nothing either, there and below
  have hunseen : ∀ party, (unseen party).sum p = 0 := by
    by_contra hsome
    obtain ⟨party, hparty⟩ := not_forall.mp hsome
    have hmem : p ∈ {p | ∃ party, (unseen party).sum p ≠ 0} := ⟨party, hparty⟩
    refine ((finite_unseen unseen).wellFoundedOn (r := lt)).induction hmem (P := fun p =>
      (∀ q, q = p ∨ lt q p → total granted seen q ≤ 0) → ¬ ∃ party, (unseen party).sum p ≠ 0) ?_
      hvacant ⟨party, hparty⟩
    rintro p _ ih hvacant ⟨party, hparty⟩
    have hdown : ∀ {q}, lt q p → ∀ r, r = q ∨ lt r q → total granted seen r ≤ 0 :=
      fun hq r hr => hvacant r (Or.inr (lt_of_eq_or_lt hr hq))
    have hbelow : ∀ q, lt q p → (unseen party).sum q = 0 ∧ (more party).sum q = 0 := by
      intro q hq
      have hzero : (unseen party).sum q = 0 := by
        by_contra hother
        exact ih q ⟨party, hother⟩ hq (hdown hq) ⟨party, hother⟩
      have hboth := h.unseen_eq_zero hfirst (hdown hq) party
      rw [List.sum_append, Finsupp.add_apply, hzero, add_zero] at hboth
      exact ⟨hzero, hboth⟩
    have hboth := h.unseen_eq_zero hfirst hvacant party
    rw [List.sum_append, Finsupp.add_apply] at hboth
    have hheld := (h.vacant hfirst hvacant).2 party
    rcases lt_or_gt_of_ne hparty with hnegative | hpositive
    · -- then the part in between added, which was justified when the second view ended
      have hjustified := h.history party (seen party) (more party) (unseen party) (hsplit party) p
        (by linarith)
      rcases hjustified with ⟨q, hq, hneg⟩ | ⟨q, hq, hpos⟩ | hless
      · exact absurd (hbelow q hq).2 hneg.ne
      · have hown := owned_of_holding hpos
        have hlater := (h.vacant hfirst (hdown hq)).2 party
        rw [hsplit, holding_append _ _ hown, (hbelow q hq).1, add_zero] at hlater
        exact absurd hlater hpos.ne'
      · by_cases hown : own p
        · rw [hsplit, holding_append _ _ hown] at hheld
          linarith
        · unfold holding at hless
          rw [if_neg hown] at hless
          linarith
    · have hviewed : ∀ other, histories other = (fun party => seen party ++ more party) other ++ unseen other :=
        hsplit
      have hjustified := h.justified hviewed party p hpositive
      rcases hjustified with ⟨q, hq, hneg⟩ | ⟨q, hq, hpos⟩ | hless
      · exact absurd (hbelow q hq).1 hneg.ne
      · exact absurd ((h.vacant hfirst (hdown hq)).2 party) hpos.ne'
      · rw [hheld] at hless
        exact absurd hpositive (not_lt.mpr hless.le)
  have htotal := total_append granted (fun party => seen party ++ more party) unseen p
  rw [← funext hsplit, (h.vacant hfirst hvacant).1, Finset.sum_eq_zero fun party _ => hunseen party]
    at htotal
  linarith

end Views

end Library
