/-
  Timely/Exactness.lean
  =====================
  **Exactness of `propagate_all`.**

  Runs of calls to a tracker, from its allocation on, with integer counts.  In a
  ranked graph a call of `propagate_all` returns, and leaves at each location the
  minimal times that the positive accumulated counts can reach along paths of the
  graph.  Nothing else about the calls matters: neither their order, nor how they
  were grouped between propagations.
-/
import Timely.Allocation
import Timely.Library.Run

set_option linter.unusedSectionVars false

namespace Timely

open Library

variable {S T : Type} [PartialOrder T] [DecidableLE T] [DecidableEq T] [Ord T] [LinearExtension T]

/-! ### Calls -/

/-- A call made to a tracker. -/
inductive Call (T : Type) where
  | update_target (target : Target) (time : T) (value : ℤ)
  | update_source (source : Source) (time : T) (value : ℤ)
  | propagate_all

namespace Call

/-- The update that a call makes, by location. -/
def change : Call T → Option ((Location × T) × ℤ)
  | update_target target time value => some ((Location.from_target target, time), value)
  | update_source source time value => some ((Location.from_source source, time), value)
  | propagate_all => none

/-- The updated location exists. -/
def Valid (builder : Builder S) (call : Call T) : Prop :=
  ∀ update ∈ call.change, builder.has_location update.1.1 = true

end Call

/-- The sum of all deltas that the calls made at a location and time. -/
def accumulated (calls : List (Call T)) (location : Location) (time : T) : ℤ :=
  tally (calls.filterMap Call.change) (location, time)

namespace Tracker

section Calls

variable [PathSummary S T]

/-- One call that returns. -/
inductive Performs : Tracker S T → Call T → Tracker S T → Prop
  | update_target {tracker : Tracker S T} (target : Target) (time : T) (value : ℤ) :
      Performs tracker (.update_target target time value) (tracker.update_target target time value)
  | update_source {tracker : Tracker S T} (source : Source) (time : T) (value : ℤ) :
      Performs tracker (.update_source source time value) (tracker.update_source source time value)
  | propagate_all {tracker after : Tracker S T} :
      tracker.Propagates after → Performs tracker .propagate_all after

/-! ### Buffered updates -/

omit [PathSummary S T] in
theorem buffered_update_target (tracker : Tracker S T) (target : Target) (time : T) (value : ℤ)
    (location : Location) (other : T) :
    (tracker.update_target target time value).buffered location other =
      tracker.buffered location other +
        if (Location.from_target target, time) = (location, other) then value else 0 := by
  obtain ⟨node, port⟩ := location
  cases port with
  | target port =>
    simp only [buffered, update_target, ChangeBatch.value_update]
    congr 1
    refine if_congr ?_ rfl rfl
    cases target
    simp [Location.from_target]
  | source port => simp [buffered, update_target, Location.from_target]

omit [PathSummary S T] in
theorem buffered_update_source (tracker : Tracker S T) (source : Source) (time : T) (value : ℤ)
    (location : Location) (other : T) :
    (tracker.update_source source time value).buffered location other =
      tracker.buffered location other +
        if (Location.from_source source, time) = (location, other) then value else 0 := by
  obtain ⟨node, port⟩ := location
  cases port with
  | target port => simp [buffered, update_source, Location.from_source]
  | source port =>
    simp only [buffered, update_source, ChangeBatch.value_update]
    congr 1
    refine if_congr ?_ rfl rfl
    cases source
    simp [Location.from_source]

/-! ### What holds between calls -/

/-- The tracker is at rest, and its counts and buffers add up to the calls made. -/
structure Tracking (builder : Builder S) (calls : List (Call T)) (tracker : Tracker S T) : Prop where
  builder_eq : tracker.builder = builder
  quiet : tracker.Quiet
  count : ∀ location time, (tracker.pointstamps_at location).count_for time +
    tracker.buffered location time = accumulated calls location time

theorem Fresh.tracking {builder : Builder S} {tracker : Tracker S T} (h : Fresh builder tracker) :
    Tracking builder [] tracker where
  builder_eq := h.builder_eq
  quiet := by
    have hsettled : tracker.Settled :=
      ⟨fun location => h.pointstamps location ▸ MutableAntichain.settled_new,
        fun location => h.implications location ▸ MutableAntichain.settled_new⟩
    refine ⟨⟨hsettled, fun location time => ?_⟩, by rw [h.worklist]; rfl⟩
    have hsupport : tracker.support location time = 0 :=
      contributions_of_empty fun origin => by rw [h.implications origin]; rfl
    rw [h.implications, h.pointstamps, h.worklist, hsupport]
    rfl
  count location time := by
    unfold buffered
    rw [h.pointstamps, h.targets, h.sources]
    split <;> rfl

theorem Tracking.performs {builder : Builder S} {calls : List (Call T)} {tracker after : Tracker S T}
    {call : Call T} (h : Tracking builder calls tracker) (hperforms : Performs tracker call after) :
    Tracking builder (calls ++ [call]) after := by
  have hsnoc : ∀ location time, accumulated (calls ++ [call]) location time =
      accumulated calls location time + accumulated [call] location time := by
    intro location time
    unfold accumulated
    rw [List.filterMap_append, tally_append]
  cases hperforms with
  | update_target target time value =>
    refine ⟨h.builder_eq, ⟨⟨⟨h.quiet.pointstamps, h.quiet.implications⟩, h.quiet.balance⟩,
      h.quiet.worklist_nil⟩, fun location other => ?_⟩
    rw [hsnoc, ← h.count, buffered_update_target, ← add_assoc]
    congr 1
    simp [accumulated, Call.change]
  | update_source source time value =>
    refine ⟨h.builder_eq, ⟨⟨⟨h.quiet.pointstamps, h.quiet.implications⟩, h.quiet.balance⟩,
      h.quiet.worklist_nil⟩, fun location other => ?_⟩
    rw [hsnoc, ← h.count, buffered_update_source, ← add_assoc]
    congr 1
    simp [accumulated, Call.change]
  | propagate_all hpropagates =>
    have hpropagated := hpropagates.propagated h.quiet.toBalanced
    refine ⟨hpropagated.builder.trans h.builder_eq, hpropagated.quiet, fun location other => ?_⟩
    rw [hsnoc, ← h.count, hpropagated.count, hpropagated.buffered]
    rfl

theorem Tracking.of_run [PartialOrder S] [DecidableLE S] {builder : Builder S}
    {calls : List (Call T)} {tracker after : Tracker S T} (hallocated : Allocated builder tracker)
    (hrun : Run Performs tracker calls after) : Tracking builder calls after :=
  hrun.invariant hallocated.fresh.tracking fun htracking hperforms => htracking.performs hperforms

end Calls

/-! ### Every call returns -/

section Returns

variable [DecidableEq S] [PathSummary S T] [AdvancingSummary S T] {rank : Location → ℕ} {bound : ℕ}

/-- Every index a call will use exists. -/
structure Prepared (tracker : Tracker S T) : Prop where
  fits : tracker.Fits
  buffered_located : tracker.BufferedLocated

theorem Fits.apply_changes {updates : List (Location × T × ℤ)} {tracker after : Tracker S T}
    (hbalanced : tracker.Balanced) (hfits : tracker.Fits)
    (h : Tracker.apply_changes updates tracker = some after) : after.Fits :=
  (apply_changes_induct (P := Fits) (fun _ hbefore hstep => hstep.fits hbefore) hbalanced hfits h).2

/-- A call that returns leaves the outputs as many. -/
theorem Fits.propagates {tracker after : Tracker S T} (hbalanced : tracker.Balanced)
    (h : tracker.Fits) (hpropagates : tracker.Propagates after) : after.Fits := by
  obtain ⟨middle, loaded, hphases⟩ := propagates_iff.mp hpropagates
  have hlinked := hphases.linked hbalanced
  have hmiddle : middle.Fits := Fits.apply_changes
    (hbalanced.with_buffers tracker.target_changes.drain.2 tracker.source_changes) h
    hphases.targets
  have hloaded : loaded.Fits :=
    Fits.apply_changes
      (hlinked.middle_balanced.with_buffers middle.target_changes middle.source_changes.drain.2)
      hmiddle hphases.sources
  intro location
  rw [hlinked.third.summaries, hlinked.third.outputs]
  exact hloaded location

theorem Prepared.propagates {tracker after : Tracker S T} (hbalanced : tracker.Balanced)
    (h : tracker.Prepared) (hpropagates : tracker.Propagates after) : after.Prepared := by
  obtain ⟨htargets, hsources⟩ := hpropagates.buffers_eq_new hbalanced
  refine ⟨h.fits.propagates hbalanced hpropagates, ⟨?_, ?_⟩⟩
  · rw [htargets]
    exact fun change hchange => absurd hchange List.not_mem_nil
  · rw [hsources]
    exact fun change hchange => absurd hchange List.not_mem_nil

theorem Prepared.performs {tracker after : Tracker S T} {call : Call T}
    (hbalanced : tracker.Balanced) (h : tracker.Prepared) (hvalid : call.Valid tracker.builder)
    (hperforms : Performs tracker call after) : after.Prepared := by
  cases hperforms with
  | update_target target time value =>
    refine ⟨h.fits, ⟨fun change hchange => ?_, h.buffered_located.sources⟩⟩
    rcases ChangeBatch.exists_key_of_mem_update hchange with heq | ⟨source, hsource, heq⟩
    · rw [heq]
      exact hvalid _ rfl
    · rw [← heq]
      exact h.buffered_located.targets source hsource
  | update_source source time value =>
    refine ⟨h.fits, ⟨h.buffered_located.targets, fun change hchange => ?_⟩⟩
    rcases ChangeBatch.exists_key_of_mem_update hchange with heq | ⟨other, hother, heq⟩
    · rw [heq]
      exact hvalid _ rfl
    · rw [← heq]
      exact h.buffered_located.sources other hother
  | propagate_all hpropagates => exact h.propagates hbalanced hpropagates

/-- In a ranked graph `propagate_all` returns. -/
theorem exists_propagates [Finite T] {tracker : Tracker S T} (hquiet : tracker.Quiet)
    (hranked : tracker.builder.Ranked rank bound) (h : tracker.Prepared) :
    ∃ after, tracker.Propagates after := by
  have hempty : tracker.Located := by
    intro entry hentry
    rw [hquiet.worklist_nil] at hentry
    cases hentry
  obtain ⟨middle, hmiddle, hmiddleFits, hmiddleLocated⟩ := exists_apply_changes
    tracker.drained_targets
    (hquiet.toBalanced.with_buffers tracker.target_changes.drain.2 tracker.source_changes)
    h.fits hempty (by
      intro update hupdate
      obtain ⟨change, hchange, rfl⟩ := List.mem_map.mp hupdate
      obtain ⟨source, hsource, hkey⟩ := ChangeBatch.exists_key_of_mem_compact hchange
      rw [← hkey]
      exact h.buffered_located.targets source hsource)
  obtain ⟨hmiddleBalanced, hfirst⟩ :=
    sameImplications_of_apply_changes (hquiet.toBalanced.with_buffers _ _) hmiddle
  have hbuilder : middle.builder = tracker.builder := hfirst.builder
  obtain ⟨loaded, hloaded, _, hloadedLocated⟩ := exists_apply_changes
    middle.drained_sources
    (hmiddleBalanced.with_buffers middle.target_changes middle.source_changes.drain.2)
    hmiddleFits hmiddleLocated (by
      intro update hupdate
      obtain ⟨change, hchange, rfl⟩ := List.mem_map.mp hupdate
      rw [hfirst.sources] at hchange
      obtain ⟨source, hsource, hkey⟩ := ChangeBatch.exists_key_of_mem_compact hchange
      change middle.builder.has_location _ = true
      rw [hbuilder, ← hkey]
      exact h.buffered_located.sources source hsource)
  obtain ⟨hloadedBalanced, hsecond⟩ :=
    sameImplications_of_apply_changes (hmiddleBalanced.with_buffers _ _) hloaded
  have hrankedLoaded : loaded.builder.Ranked rank bound := by
    have hsame : loaded.builder = tracker.builder := hsecond.builder.trans hbuilder
    rwa [hsame]
  obtain ⟨fuel, after, hafter⟩ := exists_circulate hloadedBalanced.toSupported hrankedLoaded hloadedLocated
  exact ⟨after, propagates_iff.mpr ⟨middle, loaded, hmiddle, hloaded, fuel, hafter⟩⟩

end Returns

/-! ### Exactness -/

section Main

variable [Finite T] [PartialOrder S] [DecidableLE S] [DecidableEq S] [PathSummary S T]
  [AdvancingSummary S T]

/-- The graph of the module example: three nodes in a loop, the last of which increments. -/
def example_graph : Option (Builder (Unsigned 64)) := do
  let builder ← Builder.new.add_node 0 1 1 [[Antichain.from_elem 0]]
  let builder ← builder.add_node 1 1 1 [[Antichain.from_elem 0]]
  let builder ← builder.add_node 2 1 1 [[Antichain.from_elem 1]]
  let builder ← builder.add_edge ⟨0, 0⟩ ⟨1, 0⟩
  let builder ← builder.add_edge ⟨1, 0⟩ ⟨2, 0⟩
  builder.add_edge ⟨2, 0⟩ ⟨0, 0⟩

def example_builder : Builder (Unsigned 64) := example_graph.get (by decide)

theorem example_is_acyclic :
    example_builder.is_acyclic IterationOrder.listed = some true := by decide

theorem example_allocates :
    (allocate_from (T := Unsigned 64) example_builder 20).isSome := by decide

/-- The tracker of the module example. -/
def example_tracker : Tracker (Unsigned 64) (Unsigned 64) :=
  ((allocate_from example_builder 20).get example_allocates).1

theorem example_allocated : Allocated example_builder example_tracker :=
  ⟨20, ((allocate_from example_builder 20).get example_allocates).2,
    (Option.some_get example_allocates).symm⟩

/-- The calls of the module example: one time, added at a source and not yet removed. -/
def example_calls : List (Call (Unsigned 64)) := [.update_source ⟨0, 0⟩ 17 1]

theorem example_calls_valid : ∀ call ∈ example_calls, call.Valid example_builder := by
  intro call hcall update hupdate
  rw [example_calls, List.mem_singleton] at hcall
  subst hcall
  cases hupdate
  decide

/-- The times that the positive accumulated counts of the calls can reach at a location. -/
def Reachable (builder : Builder S) (calls : List (Call T)) (location : Location) (time : T) : Prop :=
  ∃ origin start, Minimal (fun other => 0 < accumulated calls origin other) start ∧
    Builder.Path builder origin start location time

theorem Tracking.isFrontier {builder : Builder S} {calls : List (Call T)} {tracker : Tracker S T}
    {rank : Location → ℕ} {bound : ℕ} (hranked : builder.Ranked rank bound)
    (h : Tracking builder calls tracker)
    (hbuffered : ∀ location time, tracker.buffered location time = 0) (location : Location) :
    IsFrontier (tracker.implications_at location).frontier (Reachable builder calls location) := by
  have hranked' : tracker.builder.Ranked rank bound := by rwa [h.builder_eq]
  have hstable := h.quiet.stable.isFrontier tracker.builder.step_monotone hranked'.wellFounded location
  refine hstable.congr fun time => ?_
  have hseeds : ∀ origin start, start ∈ (tracker.pointstamps_at origin).frontier ↔
      Minimal (fun other => 0 < accumulated calls origin other) start := by
    intro origin start
    rw [(h.quiet.pointstamps origin).frontier.mem_iff]
    have hcount : ∀ other, (tracker.pointstamps_at origin).count_for other =
        accumulated calls origin other := by
      intro other
      rw [← h.count, hbuffered, add_zero]
    simp only [hcount]
  unfold Reaches Reachable
  simp only [hseeds, h.builder_eq, Builder.path_iff]

/-- After every `propagate_all` the implications at each location are the minimal times
    reachable from the frontiers of the positive accumulated counts. -/
theorem isFrontier_of_run {builder : Builder S} {rank : Location → ℕ} {bound : ℕ}
    (hranked : builder.Ranked rank bound) {allocated final : Tracker S T}
    (hallocated : Allocated builder allocated) {calls : List (Call T)}
    (hrun : Run Performs allocated (calls ++ [.propagate_all]) final) (location : Location) :
    IsFrontier (final.implications_at location).frontier (Reachable builder calls location) := by
  have hsame : ∀ location time,
      accumulated (calls ++ [.propagate_all]) location time = accumulated calls location time := by
    intro location time
    unfold accumulated
    rw [List.filterMap_append, tally_append]
    exact add_zero _
  obtain ⟨before, hbefore, hlast⟩ := hrun.of_snoc
  have htracking := Tracking.of_run hallocated hrun
  have hbuffered : ∀ location time, final.buffered location time = 0 := by
    cases hlast with
    | propagate_all hpropagates =>
      exact (hpropagates.propagated (Tracking.of_run hallocated hbefore).quiet.toBalanced).buffered
  refine (htracking.isFrontier hranked hbuffered location).congr fun time => ?_
  unfold Reachable
  simp only [hsame]

end Main

end Tracker

end Timely
