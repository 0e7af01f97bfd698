/-
  Timely/FrontierOverflow.lean
  ============================
  **Mutable antichains with machine addition** (`timely/src/progress/frontier.rs`).

  The counts of a mutable antichain are `i64`, and `rebuild` is where they are
  added.  Here the addition is a parameter of `rebuild` and `update_iter`: with
  integer addition they are those of `Frontier`, and a round that goes through
  without overflow is the one with integer addition.

  The changes of the frontier are not affected: whatever the counts have become,
  the frontier is one of mutually incomparable elements, and the changes that are
  drained are the difference to the one before.  An element enters and leaves it
  at most once in a round, so the sums of these changes are integers here.
-/
import Timely.Frontier
import Timely.Library.Run

set_option linter.unusedSectionVars false

namespace Timely

open Library

namespace MutableAntichain

variable {T : Type} [PartialOrder T] [DecidableLE T] [DecidableEq T] [Ord T] [LinearExtension T]

/-! ### Rounds of updates -/

section Rounds

variable (add : ℤ → ℤ → Option ℤ)

/-- Sorts and consolidates the updates, and records how the frontier changes. -/
def rebuild_with (antichain : MutableAntichain T) : Option (MutableAntichain T) :=
  (consolidateWith add antichain.updates).map antichain.expose

/-- The drained changes, and what is left of the antichain. -/
def drain_changes (antichain : MutableAntichain T) : List (T × ℤ) × MutableAntichain T :=
  (antichain.changes.drain.1, { antichain with changes := antichain.changes.drain.2 })

/-- `update_iter` with integer addition, and the frontier rebuilt in any case. -/
def update_iter_rebuilding (antichain : MutableAntichain T) (updates : List (T × ℤ)) :
    List (T × ℤ) × MutableAntichain T :=
  ({ antichain with
      updates := antichain.updates ++ updates
      dirty := 0 : MutableAntichain T }.rebuild).drain_changes

/-- Applies updates to the antichain: the changes of its frontier, and what it becomes. -/
def update_iter_with (antichain : MutableAntichain T) (updates : List (T × ℤ)) :
    Option (List (T × ℤ) × MutableAntichain T) :=
  let pushed : MutableAntichain T :=
    { antichain with
      updates := antichain.updates ++ updates
      dirty := antichain.dirty + updates.length }
  let recent := pushed.updates.drop (pushed.updates.length - pushed.dirty)
  let cleaned : MutableAntichain T := { pushed with dirty := 0 }
  if recent.any (requires_rebuild pushed.frontier) then (cleaned.rebuild_with add).map drain_changes
  else some cleaned.drain_changes

/-- `update_iter` with the frontier rebuilt in any case. -/
def update_iter_rebuilding_with (antichain : MutableAntichain T) (updates : List (T × ℤ)) :
    Option (List (T × ℤ) × MutableAntichain T) :=
  ({ antichain with
      updates := antichain.updates ++ updates
      dirty := 0 : MutableAntichain T }.rebuild_with add).map drain_changes

end Rounds

/-! ### Integer addition, and additions that extend each other -/

theorem rebuild_with_exact (antichain : MutableAntichain T) :
    antichain.rebuild_with exact_add = some antichain.rebuild := by
  rw [rebuild_with, consolidateWith_exact]
  rfl

theorem update_iter_with_exact (antichain : MutableAntichain T) (updates : List (T × ℤ)) :
    antichain.update_iter_with exact_add updates = some (antichain.update_iter updates) := by
  unfold update_iter_with update_iter
  simp only [rebuild_with_exact, Option.map_some]
  split <;> rfl

section Mono

variable {add more : ℤ → ℤ → Option ℤ} (hextends : Extends add more)
  {antichain : MutableAntichain T} {updates : List (T × ℤ)} {after : List (T × ℤ) × MutableAntichain T}

include hextends

theorem rebuild_with_mono {rebuilt : MutableAntichain T} (h : antichain.rebuild_with add = some rebuilt) :
    antichain.rebuild_with more = some rebuilt :=
  map_mono (consolidateWith_mono hextends) h

theorem update_iter_with_mono (h : antichain.update_iter_with add updates = some after) :
    antichain.update_iter_with more updates = some after := by
  unfold update_iter_with at h ⊢
  simp only at h ⊢
  split
  case isTrue hrebuild =>
    rw [if_pos hrebuild] at h
    exact map_mono (rebuild_with_mono hextends) h
  case isFalse hskip =>
    rwa [if_neg hskip] at h

theorem update_iter_rebuilding_with_mono
    (h : antichain.update_iter_rebuilding_with add updates = some after) :
    antichain.update_iter_rebuilding_with more updates = some after :=
  map_mono (rebuild_with_mono hextends) h

end Mono

/-- A round that goes through without overflow is the one with integer addition. -/
theorem update_iter_with_panics {antichain : MutableAntichain T} {updates : List (T × ℤ)}
    {after : List (T × ℤ) × MutableAntichain T}
    (h : antichain.update_iter_with (Overflow.panics.add 64) updates = some after) :
    after = antichain.update_iter updates := by
  have hexact := update_iter_with_mono (extends_exact 64) h
  rw [update_iter_with_exact, Option.some.injEq] at hexact
  exact hexact.symm

theorem update_iter_rebuilding_with_panics {antichain : MutableAntichain T} {updates : List (T × ℤ)}
    {after : List (T × ℤ) × MutableAntichain T}
    (h : antichain.update_iter_rebuilding_with (Overflow.panics.add 64) updates = some after) :
    after = antichain.update_iter_rebuilding updates := by
  have hexact := update_iter_rebuilding_with_mono (extends_exact 64) h
  rw [update_iter_rebuilding_with, rebuild_with_exact, Option.map_some, Option.some.injEq] at hexact
  exact hexact.symm

/-! ### The reported changes, whatever the counts -/

/-- The frontier lists mutually incomparable elements, and no change of it is left to report. -/
structure Exposing (antichain : MutableAntichain T) : Prop where
  changes_eq : antichain.changes = ChangeBatch.new
  incomparable : antichain.frontier.Pairwise fun first second => ¬ first ≤ second ∧ ¬ second ≤ first

/-- The changes are the exact difference of two frontiers. -/
structure Reports (before : MutableAntichain T) (changes : List (T × ℤ))
    (after : MutableAntichain T) : Prop where
  exposing : after.Exposing
  report : ∀ time, tally changes time =
    (if time ∈ after.frontier then 1 else 0) - (if time ∈ before.frontier then 1 else 0)

theorem exposing_new : (new : MutableAntichain T).Exposing := ⟨rfl, List.Pairwise.nil⟩

theorem Exposing.nodup {antichain : MutableAntichain T} (h : antichain.Exposing) :
    antichain.frontier.Nodup :=
  h.incomparable.imp fun hpair heq => hpair.1 (le_of_eq heq)

/-- However counts are added, a round reports the exact difference of the frontiers. -/
theorem Exposing.update_iter_with {add : ℤ → ℤ → Option ℤ} {antichain : MutableAntichain T}
    (h : antichain.Exposing) {updates : List (T × ℤ)} {after : List (T × ℤ) × MutableAntichain T}
    (hround : antichain.update_iter_with add updates = some after) :
    Reports antichain after.1 after.2 := by
  unfold MutableAntichain.update_iter_with at hround
  simp only at hround
  split at hround
  case isTrue =>
    obtain ⟨rebuilt, hrebuilt, rfl⟩ := Option.map_eq_some_iff.mp hround
    obtain ⟨consolidated, hconsolidated, rfl⟩ := Option.map_eq_some_iff.mp hrebuilt
    have hsorted := pairwise_consolidateWith hconsolidated
    let cleaned : MutableAntichain T :=
      { antichain with updates := antichain.updates ++ updates, dirty := 0 }
    have hchanges : cleaned.changes = ChangeBatch.new := h.changes_eq
    have hfrontier := cleaned.isFrontier_expose hsorted
    exact ⟨⟨rfl, hfrontier.incomparable⟩, fun time => tally_changes_expose hchanges h.nodup hsorted time⟩
  case isFalse =>
    cases hround
    refine ⟨⟨rfl, h.incomparable⟩, fun time => ?_⟩
    change tally antichain.changes.compact.updates time = _
    rw [ChangeBatch.tally_compact, h.changes_eq, ChangeBatch.value_new]
    exact (sub_self _).symm

/-! ### Rounds that go through -/

section Magnitude

variable {add : ℤ → ℤ → Option ℤ} {limit : ℕ} (hadds : AddsWithin add limit) (antichain : MutableAntichain T)
  (updates : List (T × ℤ))

include hadds

theorem exists_rebuild_with (h : magnitude antichain.updates ≤ limit) :
    ∃ rebuilt, antichain.rebuild_with add = some rebuilt ∧
      magnitude rebuilt.updates ≤ magnitude antichain.updates := by
  obtain ⟨consolidated, hconsolidated, hle⟩ := exists_consolidateWith hadds h
  exact ⟨_, Option.map_eq_some_iff.mpr ⟨consolidated, hconsolidated, rfl⟩, hle⟩

/-- Where the deltas together do not exceed the limit, a round goes through. -/
theorem exists_update_iter_with (h : magnitude antichain.updates + magnitude updates ≤ limit) :
    ∃ after, antichain.update_iter_with add updates = some after ∧
      magnitude after.2.updates ≤ magnitude antichain.updates + magnitude updates := by
  rw [← magnitude_append] at h ⊢
  obtain ⟨rebuilt, hrebuilt, hle⟩ := exists_rebuild_with hadds
    { antichain with updates := antichain.updates ++ updates, dirty := 0 } h
  unfold update_iter_with
  simp only
  split
  · exact ⟨_, Option.map_eq_some_iff.mpr ⟨rebuilt, hrebuilt, rfl⟩, hle⟩
  · exact ⟨_, rfl, le_rfl⟩

theorem exists_update_iter_rebuilding_with (h : magnitude antichain.updates + magnitude updates ≤ limit) :
    ∃ after, antichain.update_iter_rebuilding_with add updates = some after ∧
      magnitude after.2.updates ≤ magnitude antichain.updates + magnitude updates := by
  rw [← magnitude_append] at h ⊢
  obtain ⟨rebuilt, hrebuilt, hle⟩ := exists_rebuild_with hadds
    { antichain with updates := antichain.updates ++ updates, dirty := 0 } h
  exact ⟨_, Option.map_eq_some_iff.mpr ⟨rebuilt, hrebuilt, rfl⟩, hle⟩

end Magnitude

end MutableAntichain

end Timely
