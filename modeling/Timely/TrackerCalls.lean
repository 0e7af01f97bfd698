/-
  Timely/TrackerCalls.lean
  ========================
  **Exactness and termination of `propagate_all`.**

  Runs of calls with deltas of type `i64`, from the allocation of a tracker on.  In
  a graph that passes `is_acyclic` the worklist loop of `propagate_all` ends,
  whatever the deltas: where a sum has wrapped, the frontiers of the pointstamps
  are the wrong ones, but the loop only needs their changes.  As long as no sum of
  deltas overflows, each call leaves at each location the minimal times that the
  positive accumulated counts can reach along paths of the graph.
-/
import Timely.TrackerOverflow

set_option linter.unusedSectionVars false

namespace Timely

open Library

variable {S T : Type} [PartialOrder T] [DecidableLE T] [DecidableEq T] [Ord T] [LinearExtension T]
  [PathSummary S T]

/-- The absolute value of the delta that a call brings. -/
def Call.magnitude : Call T → ℕ
  | update_target _ _ value => value.natAbs
  | update_source _ _ value => value.natAbs
  | propagate_all => 0

/-- The absolute values of the deltas that calls bring. -/
def magnitude_of_calls (calls : List (Call T)) : ℕ := (calls.map Call.magnitude).sum

namespace Tracker

/-- Nowhere do the deltas held, and those in the buffers, together exceed the limit. -/
def Weighs (tracker : Tracker S T) (limit : ℕ) : Prop :=
  ∀ location, magnitude (tracker.pointstamps_at location).updates +
    magnitude tracker.target_changes.updates + magnitude tracker.source_changes.updates ≤ limit

variable {add : ℤ → ℤ → Option ℤ} {builder : Builder S} {tracker after : Tracker S T} {call : Call T}

/-! ### What holds between calls, whatever the counts -/

/-- All is in place for another call, and no change is left to circulate. -/
structure Resting (builder : Builder S) (tracker : Tracker S T) : Prop
    extends Loading builder tracker where
  worklist_nil : tracker.worklist.entries = []

theorem Fresh.resting (h : Fresh builder tracker) : Resting builder tracker := by
  have hquiet := h.tracking.quiet
  refine ⟨⟨h.builder_eq, fun location => ?_, hquiet.toSupported, fun entry hentry => ?_⟩,
    hquiet.worklist_nil⟩
  · rw [h.pointstamps location]
    exact MutableAntichain.exposing_new
  · rw [hquiet.worklist_nil] at hentry
    cases hentry

theorem Resting.with_buffers (h : Resting builder tracker) (targets : ChangeBatch (Target × T))
    (sources : ChangeBatch (Source × T)) :
    Resting builder { tracker with target_changes := targets, source_changes := sources } :=
  ⟨h.toLoading.with_buffers targets sources, h.worklist_nil⟩

/-- What a call leaves when the loop has ended. -/
theorem Loading.circulate (h : Loading builder tracker) {fuel : ℕ}
    (hcirculate : Tracker.circulate fuel tracker = some after) : Resting builder after := by
  obtain ⟨⟨hsupported, hnil⟩, hsame⟩ := samePointstamps_of_supported h.supported hcirculate
  refine ⟨⟨hsame.builder.trans h.builder_eq, fun location => ?_, hsupported, fun entry hentry => ?_⟩, hnil⟩
  · rw [hsame.pointstamps]
    exact h.exposing location
  · rw [hnil] at hentry
    cases hentry

/-- What the loop starts from, however counts are added. -/
theorem Resting.loading_of_drain {loaded : Tracker S T} (h : Resting builder tracker)
    (hdrain : tracker.drain_changes_with add = some loaded) : Loading builder loaded :=
  (h.toLoading.drain_changes_with (P := fun _ => True) (fun _ _ => trivial) (fun _ _ _ => trivial) trivial
    hdrain).1

theorem Resting.performsWith (h : Resting builder tracker) (hperforms : PerformsWith add tracker call after) :
    Resting builder after := by
  cases hperforms with
  | update_target target time value hupdate =>
    obtain ⟨changes, -, rfl⟩ := Option.map_eq_some_iff.mp hupdate
    exact h.with_buffers changes tracker.source_changes
  | update_source source time value hupdate =>
    obtain ⟨changes, -, rfl⟩ := Option.map_eq_some_iff.mp hupdate
    exact h.with_buffers tracker.target_changes changes
  | propagate_all hpropagate =>
    obtain ⟨loaded, hloaded, hcirculate⟩ := Option.bind_eq_some_iff.mp hpropagate
    exact (h.loading_of_drain hloaded).circulate hcirculate

theorem Resting.of_run [PartialOrder S] [DecidableLE S] {calls : List (Call T)}
    (hallocated : Allocated builder tracker) (hrun : Run (PerformsWith add) tracker calls after) :
    Resting builder after :=
  hrun.invariant (P := fun _ state => Resting builder state) hallocated.fresh.resting
    fun hresting hperforms => hresting.performsWith hperforms

/-! ### Every index exists -/

theorem BufferedLocated.update_target_with (h : tracker.BufferedLocated) {target : Target} {time : T}
    {value : ℤ} (hvalid : (Call.update_target target time value).Valid tracker.builder)
    (hupdate : tracker.update_target_with add target time value = some after) :
    after.BufferedLocated := by
  obtain ⟨changes, hchanges, rfl⟩ := Option.map_eq_some_iff.mp hupdate
  have hkeys := ChangeBatch.forall_key_of_update_with
    (P := fun key => tracker.builder.has_location (Location.from_target key.1) = true) hchanges h.targets
    (hvalid _ rfl)
  exact ⟨hkeys, h.sources⟩

theorem BufferedLocated.update_source_with (h : tracker.BufferedLocated) {source : Source} {time : T}
    {value : ℤ} (hvalid : (Call.update_source source time value).Valid tracker.builder)
    (hupdate : tracker.update_source_with add source time value = some after) :
    after.BufferedLocated := by
  obtain ⟨changes, hchanges, rfl⟩ := Option.map_eq_some_iff.mp hupdate
  have hkeys := ChangeBatch.forall_key_of_update_with
    (P := fun key => tracker.builder.has_location (Location.from_source key.1) = true) hchanges h.sources
    (hvalid _ rfl)
  exact ⟨h.targets, hkeys⟩

theorem Prepared.performsWith (hresting : Resting builder tracker) (h : tracker.Prepared)
    (hvalid : call.Valid builder) (hperforms : PerformsWith add tracker call after) :
    after.Prepared := by
  rw [← hresting.builder_eq] at hvalid
  cases hperforms with
  | update_target target time value hupdate =>
    have hlocated := h.buffered_located.update_target_with hvalid hupdate
    obtain ⟨changes, -, rfl⟩ := Option.map_eq_some_iff.mp hupdate
    exact ⟨h.fits, hlocated⟩
  | update_source source time value hupdate =>
    have hlocated := h.buffered_located.update_source_with hvalid hupdate
    obtain ⟨changes, -, rfl⟩ := Option.map_eq_some_iff.mp hupdate
    exact ⟨h.fits, hlocated⟩
  | propagate_all hpropagate =>
    obtain ⟨loaded, hloaded, hcirculate⟩ := Option.bind_eq_some_iff.mp hpropagate
    obtain ⟨hloading, hfits, htargets, hsources⟩ := hresting.toLoading.drain_changes_with (P := Fits)
      (fun hbefore hseeded => hseeded.fits hbefore) (fun _ _ hbefore => hbefore) h.fits hloaded
    obtain ⟨-, hsame⟩ := samePointstamps_of_supported hloading.supported hcirculate
    refine ⟨fun location => ?_, ⟨?_, ?_⟩⟩
    · rw [hsame.summaries, hsame.outputs]
      exact hfits location
    · rw [hsame.targets, htargets]
      exact fun change hchange => absurd hchange List.not_mem_nil
    · rw [hsame.sources, hsources]
      exact fun change hchange => absurd hchange List.not_mem_nil

section Ranked

variable [DecidableEq S] [AdvancingSummary S T] {rank : Location → ℕ} {bound : ℕ}

theorem Prepared.of_run_with [PartialOrder S] [DecidableLE S] {calls : List (Call T)}
    (hranked : builder.Ranked rank bound) (hallocated : Allocated builder tracker)
    (hvalid : ∀ call ∈ calls, call.Valid builder) (hrun : Run (PerformsWith add) tracker calls after) :
    after.Prepared := by
  induction hrun with
  | nil =>
    refine ⟨hallocated.fits hranked, ⟨?_, ?_⟩⟩
    · rw [hallocated.fresh.targets]
      exact fun change hchange => absurd hchange List.not_mem_nil
    · rw [hallocated.fresh.sources]
      exact fun change hchange => absurd hchange List.not_mem_nil
  | snoc hbefore hlast ih =>
    have hearlier := ih fun call hcall => hvalid call (by simp [hcall])
    exact hearlier.performsWith (Resting.of_run hallocated hbefore) (hvalid _ (by simp)) hlast

/-- The loop of `propagate_all` ends. -/
theorem Loading.exists_circulate [Finite T] (h : Loading builder tracker)
    (hranked : builder.Ranked rank bound) : ∃ fuel after, Tracker.circulate fuel tracker = some after := by
  rw [← h.builder_eq] at hranked
  exact Tracker.exists_circulate h.supported hranked h.located

/-! ### Updates that go through -/

/-- The state after updates that together do not exceed `magnitude`. -/
structure LoadedFrom (builder : Builder S) (tracker : Tracker S T) (total : ℕ) (last : Tracker S T) :
    Prop where
  loading : Loading builder last
  fits : last.Fits
  targets : last.target_changes = tracker.target_changes
  sources : last.source_changes = tracker.source_changes
  magnitude_le : ∀ location, magnitude (last.pointstamps_at location).updates ≤
    magnitude (tracker.pointstamps_at location).updates + total

section Magnitude

variable {limit : ℕ} (hadds : AddsWithin add limit)

include hadds

/-- An update at a location of the graph goes through, if the deltas held there together do not
    exceed the limit. -/
theorem Loading.exists_apply_change_with (h : Loading builder tracker) (hfits : tracker.Fits)
    {location : Location} (hlocation : builder.has_location location = true) (update : T × ℤ)
    (hsmall : magnitude (tracker.pointstamps_at location).updates + update.2.natAbs ≤ limit) :
    ∃ after, tracker.apply_change_with add location update = some after ∧
      LoadedFrom builder tracker update.2.natAbs after := by
  rw [← h.builder_eq] at hlocation
  obtain ⟨port, hport⟩ := Option.isSome_iff_exists.mp ((tracker.port_isSome _).mpr hlocation)
  have hpointstamps := pointstamps_at_of_port hport
  have hexposing := h.exposing location
  have hsingle : magnitude [update] = update.2.natAbs := List.sum_singleton
  rw [hpointstamps] at hexposing hsmall
  obtain ⟨changed, hchanged, hle⟩ := MutableAntichain.exists_update_iter_with hadds
    port.pointstamps [update] (by rwa [hsingle])
  have hlength := hfits location
  rw [summaries_at_of_port hport] at hlength
  obtain ⟨outputs, houtputs, -⟩ := exists_project_changes changed.1 hlength
  have happly : ∃ after, tracker.apply_change_with add location update = some after := by
    unfold Tracker.apply_change_with
    rw [hport, Option.bind_some, hchanged, Option.bind_some, foldlM_record_change]
    exact ⟨_, Option.map_eq_some_iff.mpr ⟨outputs, houtputs, rfl⟩⟩
  obtain ⟨after, hafter⟩ := happly
  have hfold := hafter
  unfold Tracker.apply_change_with at hfold
  rw [hport, Option.bind_some, hchanged, Option.bind_some] at hfold
  obtain ⟨hseeded, hupdated, -⟩ :=
    seeded_of_foldlM hport (hexposing.update_iter_with hchanged).report hfold
  refine ⟨after, hafter, (h.apply_change_with hafter).2, hseeded.fits hfits, hseeded.targets,
    hseeded.sources, fun other => ?_⟩
  by_cases heq : other = location
  · rw [heq, hupdated, hpointstamps, ← hsingle]
    exact hle
  · rw [hseeded.pointstamps other heq]
    exact Nat.le_add_right _ _

theorem Loading.exists_foldlM {Port : Type} (name : Port → Location) (changes : List ((Port × T) × ℤ))
    (h : Loading builder tracker) (hfits : tracker.Fits)
    (hlocated : ∀ change ∈ changes, builder.has_location (name change.1.1) = true)
    (hsmall : ∀ location, magnitude (tracker.pointstamps_at location).updates + magnitude changes ≤ limit) :
    ∃ last, changes.foldlM (fun tracker change =>
        tracker.apply_change_with add (name change.1.1) (change.1.2, change.2)) tracker = some last ∧
      LoadedFrom builder tracker (magnitude changes) last := by
  induction changes generalizing tracker with
  | nil => exact ⟨tracker, rfl, h, hfits, rfl, rfl, fun _ => le_rfl⟩
  | cons change changes ih =>
    simp only [magnitude_cons] at hsmall ⊢
    have hfirst := hsmall (name change.1.1)
    obtain ⟨middle, hmiddle, hloaded⟩ := h.exists_apply_change_with hadds hfits
      (hlocated change List.mem_cons_self) (change.1.2, change.2) (by simp only; omega)
    obtain ⟨last, hlast, hrest⟩ := ih hloaded.loading hloaded.fits
      (fun other hother => hlocated other (List.mem_cons_of_mem _ hother)) (fun location => by
        have hheld : _ ≤ _ + change.2.natAbs := hloaded.magnitude_le location
        have hall := hsmall location
        omega)
    refine ⟨last, ?_, hrest.loading, hrest.fits, hrest.targets.trans hloaded.targets,
      hrest.sources.trans hloaded.sources, fun location => ?_⟩
    · rw [List.foldlM_cons, hmiddle]
      exact hlast
    · have hheld : _ ≤ _ + change.2.natAbs := hloaded.magnitude_le location
      have hlater := hrest.magnitude_le location
      omega

/-- Nothing before the loop panics on updates at locations of the graph, if the deltas of each
    location and the buffers together do not exceed the limit. -/
theorem Loading.exists_drain_changes_with (h : Loading builder tracker) (hprepared : tracker.Prepared)
    (hsmall : tracker.Weighs limit) :
    ∃ loaded, tracker.drain_changes_with add = some loaded ∧ loaded.Weighs limit := by
  have hlocated := hprepared.buffered_located
  have hbuffers := hsmall ⟨0, .source 0⟩
  obtain ⟨targets, htargets, htargetsLe⟩ := ChangeBatch.exists_compact_with hadds
    tracker.target_changes (by omega)
  obtain ⟨sources, hsources, hsourcesLe⟩ := ChangeBatch.exists_compact_with hadds
    tracker.source_changes (by omega)
  have htargetsLocated := ChangeBatch.forall_key_of_compact_with
    (P := fun key => builder.has_location (Location.from_target key.1) = true) htargets
    (h.builder_eq ▸ hlocated.targets)
  have hsourcesLocated := ChangeBatch.forall_key_of_compact_with
    (P := fun key => builder.has_location (Location.from_source key.1) = true) hsources
    (h.builder_eq ▸ hlocated.sources)
  obtain ⟨middle, hmiddle, hfirst⟩ :=
    (h.with_buffers ChangeBatch.new tracker.source_changes).exists_foldlM hadds Location.from_target
      targets.updates hprepared.fits htargetsLocated (fun location => by
        have hall := hsmall location
        change magnitude (tracker.pointstamps_at location).updates + _ ≤ _
        omega)
  obtain ⟨loaded, hloaded, hsecond⟩ :=
    (hfirst.loading.with_buffers middle.target_changes ChangeBatch.new).exists_foldlM hadds
      Location.from_source sources.updates hfirst.fits hsourcesLocated (fun location => by
        have hall := hsmall location
        have hheld : magnitude (middle.pointstamps_at location).updates ≤
          magnitude (tracker.pointstamps_at location).updates + _ := hfirst.magnitude_le location
        change magnitude (middle.pointstamps_at location).updates + _ ≤ _
        omega)
  have hdrained : middle.source_changes.drain_with add = some (sources.updates, ChangeBatch.new) := by
    rw [hfirst.sources, ChangeBatch.drain_with, hsources, Option.map_some]
  refine ⟨loaded, Option.bind_eq_some_iff.mpr ⟨middle, ?_, ?_⟩, fun location => ?_⟩
  · rw [drain_target_changes_with, ChangeBatch.drain_with, htargets]
    exact hmiddle
  · rw [drain_source_changes_with, hdrained]
    exact hloaded
  · have hall := hsmall location
    have hheld : magnitude (middle.pointstamps_at location).updates ≤
      magnitude (tracker.pointstamps_at location).updates + _ := hfirst.magnitude_le location
    have hlater : magnitude (loaded.pointstamps_at location).updates ≤
      magnitude (middle.pointstamps_at location).updates + _ := hsecond.magnitude_le location
    rw [hsecond.sources, hsecond.targets, hfirst.targets]
    change _ + 0 + 0 ≤ _
    omega

section Calls

variable [Finite T] (hranked : builder.Ranked rank bound)

include hranked

/-- A call at locations of the graph goes through, if its delta and those held together do not exceed
    the limit. -/
theorem Resting.exists_performsWith (h : Resting builder tracker) (hprepared : tracker.Prepared)
    (call : Call T) (hvalid : call.Valid builder) {held : ℕ} (hheld : tracker.Weighs held)
    (hsmall : held + call.magnitude ≤ limit) :
    ∃ after, PerformsWith add tracker call after ∧ after.Weighs (held + call.magnitude) := by
  have hbuffers := hheld ⟨0, .source 0⟩
  cases call with
  | update_target target time value =>
    change _ + value.natAbs ≤ _ at hsmall
    obtain ⟨changes, hchanges, hle⟩ := ChangeBatch.exists_update_with hadds
      tracker.target_changes (target, time) value (by omega)
    refine ⟨_, .update_target target time value (Option.map_eq_some_iff.mpr ⟨changes, hchanges, rfl⟩),
      fun location => ?_⟩
    have hall := hheld location
    change magnitude (tracker.pointstamps_at location).updates + magnitude changes.updates +
      magnitude tracker.source_changes.updates ≤ held + value.natAbs
    omega
  | update_source source time value =>
    change _ + value.natAbs ≤ _ at hsmall
    obtain ⟨changes, hchanges, hle⟩ := ChangeBatch.exists_update_with hadds
      tracker.source_changes (source, time) value (by omega)
    refine ⟨_, .update_source source time value (Option.map_eq_some_iff.mpr ⟨changes, hchanges, rfl⟩),
      fun location => ?_⟩
    have hall := hheld location
    change magnitude (tracker.pointstamps_at location).updates +
      magnitude tracker.target_changes.updates + magnitude changes.updates ≤ held + value.natAbs
    omega
  | propagate_all =>
    obtain ⟨loaded, hloaded, hweighs⟩ := h.toLoading.exists_drain_changes_with
      (hadds.mono (Nat.le_of_add_right_le hsmall)) hprepared hheld
    have hloading := h.loading_of_drain hloaded
    obtain ⟨fuel, after, hafter⟩ := hloading.exists_circulate hranked
    obtain ⟨-, hsame⟩ := samePointstamps_of_supported hloading.supported hafter
    refine ⟨after, .propagate_all (Option.bind_eq_some_iff.mpr ⟨loaded, hloaded, hafter⟩),
      fun location => ?_⟩
    rw [hsame.pointstamps, hsame.targets, hsame.sources]
    exact hweighs location

/-- Calls at locations of the graph go through, if their deltas together do not exceed the limit. -/
theorem exists_run [PartialOrder S] [DecidableLE S] {calls : List (Call T)}
    (hallocated : Allocated builder tracker) (hvalid : ∀ call ∈ calls, call.Valid builder)
    (hsmall : magnitude_of_calls calls ≤ limit) :
    ∃ last, Run (PerformsWith add) tracker calls last ∧ last.Weighs (magnitude_of_calls calls) := by
  induction calls using List.reverseRecOn with
  | nil =>
    refine ⟨tracker, Run.nil, fun location => ?_⟩
    rw [hallocated.fresh.pointstamps, hallocated.fresh.targets, hallocated.fresh.sources]
    exact le_rfl
  | append_singleton calls call ih =>
    have hsum : magnitude_of_calls (calls ++ [call]) = magnitude_of_calls calls + call.magnitude := by
      unfold magnitude_of_calls
      rw [List.map_append, List.sum_append, List.map_singleton, List.sum_singleton]
    rw [hsum] at hsmall ⊢
    have hvalidBefore : ∀ earlier ∈ calls, earlier.Valid builder :=
      fun earlier hearlier => hvalid earlier (List.mem_append_left _ hearlier)
    obtain ⟨before, hbefore, hheld⟩ := ih hvalidBefore (Nat.le_of_add_right_le hsmall)
    obtain ⟨last, hlast, hweighs⟩ := (Resting.of_run hallocated hbefore).exists_performsWith hadds hranked
      (Prepared.of_run_with hranked hallocated hvalidBefore hbefore) call (hvalid call (by simp)) hheld hsmall
    exact ⟨last, hbefore.snoc hlast, hweighs⟩

end Calls

end Magnitude

end Ranked

/-! ### Termination -/

section Main

variable [Finite T] [PartialOrder S] [DecidableLE S] [DecidableEq S] [AdvancingSummary S T]

/-- The worklist loop of `propagate_all` ends: whatever updates the buffers hold, and whatever has
    become of the counts, once the updates have gone through the pointstamps some number of
    iterations empties the worklist.  If all updates were at locations of the graph they do go
    through where additions wrap, and where the deltas together stay below `2 ^ 63`, and the whole
    call returns. -/
theorem propagate_all_terminates (overflow : Overflow) {iteration : IterationOrder Location}
    (hacyclic : builder.is_acyclic iteration = some true) {allocated : Tracker S T}
    (hallocated : Allocated builder allocated) (calls : List (Call T))
    (hrun : Run (PerformsWith (overflow.add 64)) allocated calls tracker) :
    (∀ loaded, tracker.drain_changes_with (overflow.add 64) = some loaded →
      ∃ fuel after, circulate fuel loaded = some after) ∧
    (overflow = .wraps ∨ magnitude_of_calls calls < 2 ^ 63 → (∀ call ∈ calls, call.Valid builder) →
      ∃ fuel after, tracker.propagate_all_with (overflow.add 64) fuel = some after) := by
  obtain ⟨rank, bound, hranked⟩ := Builder.ranked_of_is_acyclic hacyclic
  have hresting := Resting.of_run hallocated hrun
  have hends : ∀ loaded, tracker.drain_changes_with (overflow.add 64) = some loaded →
      ∃ fuel after, circulate fuel loaded = some after :=
    fun _ hloaded => (hresting.loading_of_drain hloaded).exists_circulate hranked
  refine ⟨hends, fun hroom hvalid => ?_⟩
  have hadds : AddsWithin (overflow.add 64) (magnitude_of_calls calls) := by
    rcases hroom with rfl | hsmall
    · exact Overflow.addsWithin_wraps 64 _
    · cases overflow with
      | panics => exact Overflow.addsWithin_panics (by omega)
      | wraps => exact Overflow.addsWithin_wraps 64 _
  obtain ⟨last, hlast, hweighs⟩ := exists_run hadds hranked hallocated hvalid le_rfl
  obtain rfl := hrun.unique PerformsWith.unique hlast
  obtain ⟨loaded, hloaded, -⟩ := hresting.toLoading.exists_drain_changes_with hadds
    (Prepared.of_run_with hranked hallocated hvalid hrun) hweighs
  obtain ⟨fuel, after, hafter⟩ := hends loaded hloaded
  exact ⟨fuel, after, Option.bind_eq_some_iff.mpr ⟨loaded, hloaded, hafter⟩⟩

/-- The greatest `i64`, and one more, at a source of the module example. -/
def overflowing_calls : List (Call (Unsigned 64)) :=
  [.update_source ⟨0, 0⟩ 5 9223372036854775807, .update_source ⟨0, 0⟩ 5 1]

theorem overflowing_calls_valid : ∀ call ∈ overflowing_calls, call.Valid example_builder := by
  intro call hcall update hupdate
  have hlocation : update.1.1 = ⟨0, .source 0⟩ := by
    rcases List.mem_cons.mp hcall with rfl | hrest
    · cases hupdate
      rfl
    · rw [List.mem_singleton] at hrest
      subst hrest
      cases hupdate
      rfl
  rw [hlocation]
  decide

/-- The module example with both updates in its buffer: none of them has been added yet. -/
def overflowing_tracker : Tracker (Unsigned 64) (Unsigned 64) :=
  (example_tracker.update_source ⟨0, 0⟩ 5 9223372036854775807).update_source ⟨0, 0⟩ 5 1

theorem overflowing_run (overflow : Overflow) :
    Run (PerformsWith (overflow.add 64)) example_tracker overflowing_calls overflowing_tracker :=
  (Run.nil.snoc (.update_source ⟨0, 0⟩ 5 9223372036854775807 rfl)).snoc
    (.update_source ⟨0, 0⟩ 5 1 rfl)

theorem propagate_all_terminates_example :
    ∃ fuel after, overflowing_tracker.propagate_all_with (Overflow.wraps.add 64) fuel = some after :=
  (propagate_all_terminates .wraps example_is_acyclic example_allocated overflowing_calls
    (overflowing_run .wraps)).2 (.inl rfl) overflowing_calls_valid

/-! ### Exactness -/

/-- As long as no sum of deltas overflows, and none does if the deltas together stay below `2 ^ 63`:
    after every `propagate_all` the implications at each location are the minimal times reachable
    from the frontiers of the positive accumulated counts, and only the accumulated counts determine
    the result.  The call returns once the updates have gone through the pointstamps, and a build
    that wraps does the same as one that panics. -/
theorem propagate_all_exact {iteration : IterationOrder Location}
    (hacyclic : builder.is_acyclic iteration = some true) {allocated : Tracker S T}
    (hallocated : Allocated builder allocated) (calls : List (Call T)) :
    ((∀ call ∈ calls, call.Valid builder) → magnitude_of_calls calls < 2 ^ 63 →
      ∃ final, Run (PerformsWith (Overflow.panics.add 64)) allocated (calls ++ [.propagate_all]) final) ∧
    (∀ tracker loaded, Run (PerformsWith (Overflow.panics.add 64)) allocated calls tracker →
      tracker.drain_changes_with (Overflow.panics.add 64) = some loaded →
      ∃ final, Run (PerformsWith (Overflow.panics.add 64)) allocated (calls ++ [.propagate_all]) final) ∧
    ∀ final, Run (PerformsWith (Overflow.panics.add 64)) allocated (calls ++ [.propagate_all]) final →
      Run (PerformsWith (Overflow.wraps.add 64)) allocated (calls ++ [.propagate_all]) final ∧
      (∀ location, (final.implications_at location).frontier.Nodup ∧
        ∀ time, time ∈ (final.implications_at location).frontier ↔
          Minimal (Reachable builder calls location) time) ∧
      ∀ (others : List (Call T)) (other : Tracker S T),
        Run (PerformsWith (Overflow.panics.add 64)) allocated (others ++ [.propagate_all]) other →
        (∀ location time, accumulated others location time = accumulated calls location time) →
        ∀ location time, time ∈ (other.implications_at location).frontier ↔
          time ∈ (final.implications_at location).frontier := by
  obtain ⟨rank, bound, hranked⟩ := Builder.ranked_of_is_acyclic hacyclic
  have hexact : ∀ (list : List (Call T)) (final : Tracker S T),
      Run (PerformsWith (Overflow.panics.add 64)) allocated (list ++ [.propagate_all]) final →
      ∀ location,
        IsFrontier (final.implications_at location).frontier (Reachable builder list location) :=
    fun list final hrun => isFrontier_of_run hranked hallocated (run_of_panics hrun)
  refine ⟨fun hvalid hsmall => ?_, fun tracker loaded hrun hloaded => ?_,
    fun final hrun => ⟨?_, fun location => ?_, ?_⟩⟩
  · have hadds : AddsWithin (Overflow.panics.add 64) (magnitude_of_calls calls) :=
      Overflow.addsWithin_panics (by omega)
    obtain ⟨before, hbefore, hheld⟩ := exists_run hadds hranked hallocated hvalid le_rfl
    obtain ⟨final, hfinal, -⟩ := (Resting.of_run hallocated hbefore).exists_performsWith hadds hranked
      (Prepared.of_run_with hranked hallocated hvalid hbefore) .propagate_all
      (fun _ hnone => nomatch hnone) hheld le_rfl
    exact ⟨final, hbefore.snoc hfinal⟩
  · obtain ⟨fuel, after, hafter⟩ :=
      ((Resting.of_run hallocated hrun).loading_of_drain hloaded).exists_circulate hranked
    exact ⟨after, hrun.snoc (.propagate_all (Option.bind_eq_some_iff.mpr ⟨loaded, hloaded, hafter⟩))⟩
  · exact hrun.mono fun hperforms => hperforms.mono (Overflow.wraps.extends_panics 64)
  · exact ⟨(hexact calls final hrun location).nodup, (hexact calls final hrun location).mem_iff⟩
  · intro others other hother hsame location time
    rw [(hexact calls final hrun location).mem_iff, (hexact others other hother location).mem_iff]
    unfold Reachable
    simp only [hsame]

theorem propagate_all_exact_example :
    ∃ final, Run (PerformsWith (Overflow.panics.add 64)) example_tracker
        (example_calls ++ [.propagate_all]) final ∧
      ∀ location time, time ∈ (final.implications_at location).frontier ↔
        Minimal (Reachable example_builder example_calls location) time := by
  obtain ⟨hreturns, -, hexact⟩ :=
    propagate_all_exact example_is_acyclic example_allocated example_calls
  obtain ⟨final, hfinal⟩ := hreturns example_calls_valid (by decide)
  exact ⟨final, hfinal, fun location => ((hexact final hfinal).2.1 location).2⟩

/-- The greatest `i64`, and one more: a debug build panics, and in a release build the sum wraps, so
    that the frontier is empty although the accumulated count is positive. -/
theorem propagate_all_overflows :
    (∀ final, ¬ Run (PerformsWith (Overflow.panics.add 64)) example_tracker
      (overflowing_calls ++ [.propagate_all]) final) ∧
    (∃ final, Run (PerformsWith (Overflow.wraps.add 64)) example_tracker
        (overflowing_calls ++ [.propagate_all]) final ∧
      (final.implications_at ⟨0, .source 0⟩).frontier = []) ∧
    Minimal (Reachable example_builder overflowing_calls ⟨0, .source 0⟩) 5 := by
  refine ⟨fun final hrun => ?_, ?_, ?_⟩
  · obtain ⟨before, hbefore, hlast⟩ := hrun.of_snoc
    obtain rfl := (overflowing_run .panics).unique PerformsWith.unique hbefore
    have hnone : (overflowing_tracker.drain_changes_with (Overflow.panics.add 64)).isNone := by decide
    cases hlast with
    | propagate_all hpropagate =>
      rw [propagate_all_with, Option.isNone_iff_eq_none.mp hnone] at hpropagate
      cases hpropagate
  · have hwrapped : (overflowing_tracker.propagate_all_with (Overflow.wraps.add 64) 0).map
        (fun final => (final.implications_at ⟨0, .source 0⟩).frontier) = some [] := by decide
    obtain ⟨final, hfinal, hempty⟩ := Option.map_eq_some_iff.mp hwrapped
    exact ⟨final, (overflowing_run .wraps).snoc (.propagate_all hfinal), hempty⟩
  · have haccumulated : ∀ (origin : Location) (start : Unsigned 64),
        0 < accumulated overflowing_calls origin start → origin = ⟨0, .source 0⟩ ∧ start = 5 := by
      intro origin start hpositive
      by_contra hne
      have hkey : (Location.from_source ⟨0, 0⟩, (5 : Unsigned 64)) ≠ (origin, start) := fun heq =>
        hne ⟨(Prod.mk.inj heq).1.symm, (Prod.mk.inj heq).2.symm⟩
      simp [accumulated, overflowing_calls, Call.change, tally_cons, hkey] at hpositive
    refine ⟨⟨⟨0, .source 0⟩, 5, ⟨by decide, fun other hother _ => ?_⟩, Builder.Path.nil⟩, ?_⟩
    · exact (haccumulated _ _ hother).2.ge
    · rintro other ⟨origin, start, hstart, hpath⟩ -
      obtain ⟨rfl, rfl⟩ := haccumulated _ _ hstart.1
      exact Builder.le_of_path (Builder.path_iff.mp hpath)

end Main

end Tracker

end Timely
