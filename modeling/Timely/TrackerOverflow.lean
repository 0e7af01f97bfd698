/-
  Timely/TrackerOverflow.lean
  ===========================
  **The tracker with machine addition** (`timely/src/progress/reachability.rs`).

  The deltas that callers give a tracker are `i64`, and go through the sums of the
  two buffers and of the pointstamps.  Here the addition of these sums is a
  parameter: with integer addition the calls are those of `Tracker`, and calls that
  go through without overflow do what they do there.  All other counts of a tracker
  (its implications, its worklist and the changes it passes on) are sums of changes
  of frontiers by one, and stay integers.
-/
import Timely.Exactness
import Timely.BatchOverflow
import Timely.FrontierOverflow

set_option linter.unusedSectionVars false

namespace Timely

open Library

variable {S T : Type} [PartialOrder T] [DecidableLE T] [DecidableEq T] [Ord T] [LinearExtension T]
  [PathSummary S T]

namespace Tracker

/-! ### Calls -/

section Operations

variable (add : ℤ → ℤ → Option ℤ)

/-- Updates the count for a time at a target (operator input, scope output). -/
def update_target_with (tracker : Tracker S T) (target : Target) (time : T) (value : ℤ) :
    Option (Tracker S T) :=
  (tracker.target_changes.update_with add (target, time) value).map fun changes =>
    { tracker with target_changes := changes }

/-- Updates the count for a time at a source (operator output, scope input). -/
def update_source_with (tracker : Tracker S T) (source : Source) (time : T) (value : ℤ) :
    Option (Tracker S T) :=
  (tracker.source_changes.update_with add (source, time) value).map fun changes =>
    { tracker with source_changes := changes }

/-- Move one buffered update through the pointstamps of its port. -/
def apply_change_with (tracker : Tracker S T) (location : Location) (update : T × ℤ) :
    Option (Tracker S T) :=
  (tracker.port location).bind fun port =>
    (port.pointstamps.update_iter_with add [update]).bind fun changed =>
      changed.1.foldlM (record_change location port.output_summaries)
        (tracker.set_pointstamps location changed.2)

/-- Drain the buffered target changes. -/
def drain_target_changes_with (tracker : Tracker S T) : Option (Tracker S T) :=
  (tracker.target_changes.drain_with add).bind fun drained =>
    drained.1.foldlM
      (fun tracker change =>
        tracker.apply_change_with add (Location.from_target change.1.1) (change.1.2, change.2))
      { tracker with target_changes := drained.2 }

/-- Drain the buffered source changes. -/
def drain_source_changes_with (tracker : Tracker S T) : Option (Tracker S T) :=
  (tracker.source_changes.drain_with add).bind fun drained =>
    drained.1.foldlM
      (fun tracker change =>
        tracker.apply_change_with add (Location.from_source change.1.1) (change.1.2, change.2))
      { tracker with source_changes := drained.2 }

/-- What `propagate_all` does before its worklist loop. -/
def drain_changes_with (tracker : Tracker S T) : Option (Tracker S T) :=
  (tracker.drain_target_changes_with add).bind fun middle => middle.drain_source_changes_with add

/-- Propagates all pending updates, in at most `fuel` iterations. -/
def propagate_all_with (fuel : ℕ) (tracker : Tracker S T) : Option (Tracker S T) :=
  (tracker.drain_changes_with add).bind (circulate fuel)

/-- One call that returns. -/
inductive PerformsWith : Tracker S T → Call T → Tracker S T → Prop
  | update_target {tracker after : Tracker S T} (target : Target) (time : T) (value : ℤ) :
      tracker.update_target_with add target time value = some after →
      PerformsWith tracker (.update_target target time value) after
  | update_source {tracker after : Tracker S T} (source : Source) (time : T) (value : ℤ) :
      tracker.update_source_with add source time value = some after →
      PerformsWith tracker (.update_source source time value) after
  | propagate_all {tracker after : Tracker S T} {fuel : ℕ} :
      tracker.propagate_all_with add fuel = some after → PerformsWith tracker .propagate_all after

end Operations

/-! ### Integer addition -/

theorem update_target_with_exact (tracker : Tracker S T) (target : Target) (time : T) (value : ℤ) :
    tracker.update_target_with exact_add target time value =
      some (tracker.update_target target time value) := by
  rw [update_target_with, ChangeBatch.update_with, ChangeBatch.maintain_bounds_with_exact]
  rfl

theorem update_source_with_exact (tracker : Tracker S T) (source : Source) (time : T) (value : ℤ) :
    tracker.update_source_with exact_add source time value =
      some (tracker.update_source source time value) := by
  rw [update_source_with, ChangeBatch.update_with, ChangeBatch.maintain_bounds_with_exact]
  rfl

theorem apply_change_with_exact (tracker : Tracker S T) (location : Location) (update : T × ℤ) :
    tracker.apply_change_with exact_add location update = tracker.apply_change location update := by
  unfold apply_change_with apply_change
  cases tracker.port location with
  | none => rfl
  | some port =>
    rw [Option.bind_some, MutableAntichain.update_iter_with_exact, Option.bind_some]

theorem drain_changes_with_exact (tracker : Tracker S T) :
    tracker.drain_changes_with exact_add = tracker.drain_target_changes.bind drain_source_changes := by
  unfold drain_changes_with drain_target_changes_with drain_source_changes_with
  simp only [ChangeBatch.drain_with_exact, Option.bind_some, apply_change_with_exact]
  rfl

theorem performsWith_exact {tracker after : Tracker S T} {call : Call T}
    (h : PerformsWith exact_add tracker call after) : Performs tracker call after := by
  cases h with
  | update_target target time value hupdate =>
    rw [update_target_with_exact, Option.some.injEq] at hupdate
    subst hupdate
    exact Performs.update_target target time value
  | update_source source time value hupdate =>
    rw [update_source_with_exact, Option.some.injEq] at hupdate
    subst hupdate
    exact Performs.update_source source time value
  | propagate_all hpropagate =>
    rw [propagate_all_with, drain_changes_with_exact] at hpropagate
    exact Performs.propagate_all ⟨_, hpropagate⟩

/-! ### Additions that extend each other -/

section Mono

variable {add more : ℤ → ℤ → Option ℤ} (hextends : Extends add more) {tracker after : Tracker S T}

include hextends

theorem apply_change_with_mono {location : Location} {update : T × ℤ}
    (h : tracker.apply_change_with add location update = some after) :
    tracker.apply_change_with more location update = some after := by
  unfold apply_change_with at h ⊢
  obtain ⟨port, hport, hrest⟩ := Option.bind_eq_some_iff.mp h
  obtain ⟨changed, hchanged, hfold⟩ := Option.bind_eq_some_iff.mp hrest
  rw [hport, Option.bind_some, MutableAntichain.update_iter_with_mono hextends hchanged, Option.bind_some,
    hfold]

theorem drain_target_changes_with_mono (h : tracker.drain_target_changes_with add = some after) :
    tracker.drain_target_changes_with more = some after := by
  unfold drain_target_changes_with at h ⊢
  obtain ⟨drained, hdrained, hfold⟩ := Option.bind_eq_some_iff.mp h
  rw [ChangeBatch.drain_with_mono hextends hdrained, Option.bind_some]
  exact foldlM_mono (apply_change_with_mono hextends) hfold

theorem drain_source_changes_with_mono (h : tracker.drain_source_changes_with add = some after) :
    tracker.drain_source_changes_with more = some after := by
  unfold drain_source_changes_with at h ⊢
  obtain ⟨drained, hdrained, hfold⟩ := Option.bind_eq_some_iff.mp h
  rw [ChangeBatch.drain_with_mono hextends hdrained, Option.bind_some]
  exact foldlM_mono (apply_change_with_mono hextends) hfold

theorem drain_changes_with_mono (h : tracker.drain_changes_with add = some after) :
    tracker.drain_changes_with more = some after := by
  unfold drain_changes_with at h ⊢
  obtain ⟨middle, hmiddle, hrest⟩ := Option.bind_eq_some_iff.mp h
  rw [drain_target_changes_with_mono hextends hmiddle, Option.bind_some]
  exact drain_source_changes_with_mono hextends hrest

/-- A call that returns with the first addition does the same with the second one. -/
theorem PerformsWith.mono {call : Call T} (h : PerformsWith add tracker call after) :
    PerformsWith more tracker call after := by
  cases h with
  | update_target target time value hupdate =>
    exact .update_target target time value (map_mono (ChangeBatch.maintain_bounds_with_mono hextends) hupdate)
  | update_source source time value hupdate =>
    exact .update_source source time value (map_mono (ChangeBatch.maintain_bounds_with_mono hextends) hupdate)
  | propagate_all hpropagate =>
    obtain ⟨loaded, hloaded, hcirculate⟩ := Option.bind_eq_some_iff.mp hpropagate
    have hsame := drain_changes_with_mono hextends hloaded
    exact .propagate_all (Option.bind_eq_some_iff.mpr ⟨loaded, hsame, hcirculate⟩)

end Mono

theorem PerformsWith.unique {add : ℤ → ℤ → Option ℤ} {tracker after after' : Tracker S T} {call : Call T}
    (h : PerformsWith add tracker call after) (h' : PerformsWith add tracker call after') :
    after = after' := by
  cases h with
  | update_target target time value hupdate =>
    cases h' with
    | update_target _ _ _ hupdate' => exact Option.some.inj (hupdate.symm.trans hupdate')
  | update_source source time value hupdate =>
    cases h' with
    | update_source _ _ _ hupdate' => exact Option.some.inj (hupdate.symm.trans hupdate')
  | propagate_all hpropagate =>
    cases h' with
    | propagate_all hpropagate' =>
      obtain ⟨loaded, hloaded, hcirculate⟩ := Option.bind_eq_some_iff.mp hpropagate
      obtain ⟨loaded', hloaded', hcirculate'⟩ := Option.bind_eq_some_iff.mp hpropagate'
      obtain rfl := Option.some.inj (hloaded.symm.trans hloaded')
      exact circulate_unique hcirculate hcirculate'

/-- Calls that go through without overflow do what they do with integer addition. -/
theorem run_of_panics {tracker after : Tracker S T} {calls : List (Call T)}
    (h : Run (PerformsWith (Overflow.panics.add 64)) tracker calls after) :
    Run Performs tracker calls after :=
  h.mono fun hperforms => performsWith_exact (hperforms.mono (extends_exact 64))

/-! ### Whatever the counts -/

/-- The counts of the pointstamps aside, all is in place for another update. -/
structure Loading (builder : Builder S) (tracker : Tracker S T) : Prop where
  builder_eq : tracker.builder = builder
  exposing : ∀ location, (tracker.pointstamps_at location).Exposing
  supported : tracker.Supported
  located : tracker.Located

section Loading

variable {add : ℤ → ℤ → Option ℤ} {builder : Builder S} {tracker after : Tracker S T}

theorem Loading.with_buffers (h : Loading builder tracker) (targets : ChangeBatch (Target × T))
    (sources : ChangeBatch (Source × T)) :
    Loading builder { tracker with target_changes := targets, source_changes := sources } :=
  ⟨h.builder_eq, h.exposing, ⟨h.supported.implications, h.supported.balance⟩, h.located⟩

/-- However counts are added, the changes of the pointstamp frontier are seeded. -/
theorem Loading.apply_change_with (h : Loading builder tracker) {location : Location} {update : T × ℤ}
    (happly : tracker.apply_change_with add location update = some after) :
    (∃ changes, Seeded tracker location changes after) ∧ Loading builder after := by
  unfold Tracker.apply_change_with at happly
  obtain ⟨port, hport, hrest⟩ := Option.bind_eq_some_iff.mp happly
  obtain ⟨changed, hchanged, hfold⟩ := Option.bind_eq_some_iff.mp hrest
  have hexposing := h.exposing location
  rw [pointstamps_at_of_port hport] at hexposing
  have hreports := hexposing.update_iter_with hchanged
  obtain ⟨hseeded, hpointstamps, -⟩ := seeded_of_foldlM hport hreports.report hfold
  refine ⟨⟨_, hseeded⟩, hseeded.builder.trans h.builder_eq, fun other => ?_,
    hseeded.supported h.supported, hseeded.located h.located⟩
  by_cases heq : other = location
  · rw [heq, hpointstamps]
    exact hreports.exposing
  · rw [hseeded.pointstamps other heq]
    exact h.exposing other

/-- What every seeded update preserves holds after a list of them. -/
theorem Loading.foldlM {P : Tracker S T → Prop} {Port : Type} {name : Port → Location}
    {changes : List ((Port × T) × ℤ)}
    (hstep : ∀ {before after : Tracker S T} {location changes}, P before →
      Seeded before location changes after → P after)
    (h : Loading builder tracker) (hstart : P tracker)
    (hfold : changes.foldlM (fun tracker change =>
      tracker.apply_change_with add (name change.1.1) (change.1.2, change.2)) tracker = some after) :
    Loading builder after ∧ P after := by
  refine foldlM_invariant (P := fun state => Loading builder state ∧ P state) ⟨h, hstart⟩ ?_ hfold
  rintro before change next - ⟨hbefore, hkept⟩ happly
  obtain ⟨⟨_, hseeded⟩, hnext⟩ := hbefore.apply_change_with happly
  exact ⟨hnext, hstep hkept hseeded⟩

/-- What the loop of `propagate_all` starts from. -/
theorem Loading.drain_changes_with {P : Tracker S T → Prop}
    (hstep : ∀ {before after : Tracker S T} {location changes}, P before →
      Seeded before location changes after → P after)
    (hbuffers : ∀ {state : Tracker S T} (targets : ChangeBatch (Target × T))
      (sources : ChangeBatch (Source × T)), P state →
      P { state with target_changes := targets, source_changes := sources })
    (h : Loading builder tracker) (hstart : P tracker)
    (hdrain : tracker.drain_changes_with add = some after) :
    Loading builder after ∧ P after ∧ after.target_changes = ChangeBatch.new ∧
      after.source_changes = ChangeBatch.new := by
  obtain ⟨middle, hmiddle, hrest⟩ := Option.bind_eq_some_iff.mp hdrain
  obtain ⟨targets, htargets, hfold⟩ := Option.bind_eq_some_iff.mp hmiddle
  obtain ⟨sources, hsources, hfold'⟩ := Option.bind_eq_some_iff.mp hrest
  obtain ⟨hloading, hkept, hnew⟩ := Loading.foldlM
    (P := fun state => P state ∧ state.target_changes = ChangeBatch.new)
    (fun hbefore hseeded => ⟨hstep hbefore.1 hseeded, hseeded.targets.trans hbefore.2⟩)
    (h.with_buffers targets.2 tracker.source_changes)
    ⟨hbuffers targets.2 tracker.source_changes hstart, ChangeBatch.eq_new_of_drain_with htargets⟩ hfold
  obtain ⟨hloading', hkept', hnew', hsourcesNew⟩ := Loading.foldlM
    (P := fun state => P state ∧ state.target_changes = ChangeBatch.new ∧
      state.source_changes = ChangeBatch.new)
    (fun hbefore hseeded => ⟨hstep hbefore.1 hseeded, hseeded.targets.trans hbefore.2.1,
      hseeded.sources.trans hbefore.2.2⟩)
    (hloading.with_buffers middle.target_changes sources.2)
    ⟨hbuffers middle.target_changes sources.2 hkept, hnew, ChangeBatch.eq_new_of_drain_with hsources⟩
    hfold'
  exact ⟨hloading', hkept', hnew', hsourcesNew⟩

end Loading

end Tracker

end Timely
