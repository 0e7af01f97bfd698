/-
  Timely/Library/Sorted.lean
  ==========================
  **Lists in the order of a key.**

  A list that is strictly sorted by a key is determined by its items, and a
  condition that is passed down along the order holds for an initial segment.
-/
import Mathlib.Data.List.Perm.Basic
import Mathlib.Data.List.Sort
import Mathlib.Order.Basic

namespace Library

variable {A K : Type*}

section Strict

variable [PartialOrder K] {key : A → K} {first second : List A}

/-- Two strictly sorted lists of the same items are equal. -/
theorem eq_of_strictly_sorted (hperm : first.Perm second)
    (hfirst : first.Pairwise fun item item' => key item < key item')
    (hsecond : second.Pairwise fun item item' => key item < key item') : first = second := by
  apply hperm.eq_of_pairwise _ hfirst hsecond
  intro item item' _ _ hlt hlt'
  exact absurd hlt' (lt_asymm hlt)

/-- A sorted list without equal keys is strictly sorted. -/
theorem strictly_sorted_of_nodup (hsorted : first.Pairwise fun item item' => key item ≤ key item')
    (hnodup : (first.map key).Nodup) : first.Pairwise fun item item' => key item < key item' := by
  have hne : first.Pairwise fun item item' => key item ≠ key item' := List.pairwise_map.mp hnodup
  exact (hsorted.and hne).imp fun hpair => lt_of_le_of_ne hpair.1 hpair.2

end Strict

/-- In a list along which a condition is passed down, the items that meet it come first. -/
theorem take_length_filter {holds : A → Bool} {items : List A}
    (hdown : items.Pairwise fun item item' => holds item' = true → holds item = true) :
    items.take (items.filter holds).length = items.filter holds ∧
      items.drop (items.filter holds).length = items.filter fun item => !holds item := by
  induction items with
  | nil => exact ⟨rfl, rfl⟩
  | cons item items ih =>
    obtain ⟨hhead, htail⟩ := List.pairwise_cons.mp hdown
    by_cases hitem : holds item = true
    · obtain ⟨htake, hdrop⟩ := ih htail
      rw [List.filter_cons_of_pos hitem, List.filter_cons_of_neg (by simp [hitem]), List.length_cons,
        List.take_succ_cons, List.drop_succ_cons, htake]
      exact ⟨rfl, hdrop⟩
    · -- once the condition fails it fails for all that follow
      have hnone : ∀ other ∈ items, ¬ holds other = true :=
        fun other hother hholds => hitem (hhead other hother hholds)
      have hfilter : items.filter holds = [] := List.filter_eq_nil_iff.mpr hnone
      have hrest : (items.filter fun other => !holds other) = items := by
        apply List.filter_eq_self.mpr
        intro other hother
        simpa using hnone other hother
      rw [List.filter_cons_of_neg hitem, List.filter_cons_of_pos (by simpa using hitem), hfilter, hrest]
      exact ⟨rfl, rfl⟩

/-- Taking while a condition is met that is passed down takes all that meet it. -/
theorem takeWhile_eq_filter {holds : A → Bool} {items : List A}
    (hdown : items.Pairwise fun item item' => holds item' = true → holds item = true) :
    items.takeWhile holds = items.filter holds := by
  induction items with
  | nil => rfl
  | cons item items ih =>
    obtain ⟨hhead, htail⟩ := List.pairwise_cons.mp hdown
    by_cases hitem : holds item = true
    · rw [List.takeWhile_cons_of_pos hitem, List.filter_cons_of_pos hitem, ih htail]
    · rw [List.takeWhile_cons_of_neg hitem, Eq.comm, List.filter_eq_nil_iff]
      intro other hother hholds
      rcases List.mem_cons.mp hother with rfl | hmem
      · exact hitem hholds
      · exact hitem (hhead other hmem hholds)

/-- What is left does not meet it. -/
theorem mem_dropWhile_iff {holds : A → Bool} {items : List A} {item : A}
    (hdown : items.Pairwise fun item item' => holds item' = true → holds item = true) :
    item ∈ items.dropWhile holds ↔ item ∈ items ∧ ¬ holds item = true := by
  induction items with
  | nil => exact ⟨fun h => absurd h List.not_mem_nil, fun h => absurd h.1 List.not_mem_nil⟩
  | cons first items ih =>
    obtain ⟨hhead, htail⟩ := List.pairwise_cons.mp hdown
    by_cases hfirst : holds first = true
    · rw [List.dropWhile_cons_of_pos hfirst, ih htail, List.mem_cons]
      refine and_congr_left fun hnot => (or_iff_right ?_).symm
      rintro rfl
      exact hnot hfirst
    · rw [List.dropWhile_cons_of_neg hfirst]
      refine ⟨fun hmem => ⟨hmem, fun hholds => ?_⟩, And.left⟩
      rcases List.mem_cons.mp hmem with rfl | hrest
      · exact hfirst hholds
      · exact hfirst (hhead item hrest hholds)

end Library
