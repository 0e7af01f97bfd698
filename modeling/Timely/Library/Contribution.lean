/-
  Timely/Library/Contribution.lean
  ================================
  **Weighing the listed items of many places.**

  Every place holds a list of items, and every item at a place has a weight.
  `contributions` adds the weights up over all places.  When one place replaces
  its list, the sum moves by the weight of the change report of that list.
-/
import Timely.Library.Tally
import Mathlib.Algebra.Order.BigOperators.Group.Finset
import Mathlib.Algebra.Order.BigOperators.Group.List

namespace Library

variable {L T : Type*}

/-- The sum of the weights of the listed items of all places. -/
def contributions (places : Finset L) (lists : L → List T) (weight : L → T → ℤ) : ℤ :=
  ∑ place ∈ places, ((lists place).map (weight place)).sum

variable {places : Finset L} {lists lists' : L → List T} {weight : L → T → ℤ}

theorem contributions_of_empty (h : ∀ place, lists place = []) :
    contributions places lists weight = 0 :=
  Finset.sum_eq_zero fun place _ => by rw [h place]; rfl

section Positive

variable (hweight : ∀ place item, 0 ≤ weight place item)

include hweight

theorem contribution_nonneg (place : L) : 0 ≤ ((lists place).map (weight place)).sum := by
  refine List.sum_nonneg fun value hvalue => ?_
  obtain ⟨item, _, rfl⟩ := List.mem_map.mp hvalue
  exact hweight place item

theorem contributions_nonneg : 0 ≤ contributions places lists weight :=
  Finset.sum_nonneg fun place _ => contribution_nonneg hweight place

/-- The sum is positive exactly when some listed item has a positive weight. -/
theorem contributions_pos_iff (houtside : ∀ place, place ∉ places → lists place = []) :
    0 < contributions places lists weight ↔
      ∃ place item, item ∈ lists place ∧ 0 < weight place item := by
  unfold contributions
  rw [Finset.sum_pos_iff_of_nonneg fun place _ => contribution_nonneg hweight place]
  constructor
  · rintro ⟨place, _, hpos⟩
    by_contra hno
    push Not at hno
    refine absurd hpos (not_lt_of_ge (le_of_eq (List.sum_eq_zero fun value hvalue => ?_)))
    obtain ⟨item, hitem, rfl⟩ := List.mem_map.mp hvalue
    exact le_antisymm (hno place item hitem) (hweight place item)
  · rintro ⟨place, item, hitem, hpos⟩
    have hmem : place ∈ places := by
      by_contra hno
      rw [houtside place hno] at hitem
      exact List.not_mem_nil hitem
    refine ⟨place, hmem, ?_⟩
    have hle := List.single_le_sum (l := (lists place).map (weight place)) (by
      intro value hvalue
      obtain ⟨other, _, rfl⟩ := List.mem_map.mp hvalue
      exact hweight place other) _ (List.mem_map_of_mem hitem)
    exact lt_of_lt_of_le hpos hle

end Positive

/-- One place replaces its list: the sum moves by the weight of the report of the change. -/
theorem contributions_change [DecidableEq L] [DecidableEq T] {place : L} {changes : List (T × ℤ)}
    (houtside : place ∉ places → lists place = [] ∧ lists' place = [])
    (hothers : ∀ other, other ≠ place → lists' other = lists other)
    (hold : (lists place).Nodup) (hnew : (lists' place).Nodup)
    (hreport : ∀ item, tally changes item =
      (if item ∈ lists' place then 1 else 0) - (if item ∈ lists place then 1 else 0)) :
    contributions places lists' weight =
      contributions places lists weight + weigh changes (weight place) := by
  have hsent := weigh_changes hold hnew hreport (weight place)
  unfold contributions
  rw [hsent]
  by_cases hmem : place ∈ places
  · rw [← Finset.add_sum_erase _ _ hmem, ← Finset.add_sum_erase _ _ hmem,
      Finset.sum_congr rfl fun other hother => by rw [hothers other (Finset.ne_of_mem_erase hother)]]
    ring
  · -- a place that is not counted has no items, before or after
    obtain ⟨hbefore, hafter⟩ := houtside hmem
    rw [hbefore, hafter, List.map_nil, List.sum_nil, sub_self, add_zero]
    refine Finset.sum_congr rfl fun other hother => ?_
    have hne : other ≠ place := fun heq => hmem (heq ▸ hother)
    rw [hothers other hne]

end Library
