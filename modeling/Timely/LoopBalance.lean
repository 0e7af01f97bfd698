/-
  Timely/LoopBalance.lean
  =======================
  **Conservation in the worklist loop of `propagate_all`**
  (`timely/src/progress/reachability.rs`, `Tracker::propagate_all`).

  `Balance.lean` counts the reasons of an implication by weights.  Here they are
  listed: each reason is a location, a way from there in one step, and a time in
  the implication frontier of this location that the way takes to the implied
  one.  At the head of each iteration, in every state that the owner of a
  tracker can bring it to, the counts and the worklist account for the reasons.
-/
import Timely.Bookkeeping

set_option linter.unusedSectionVars false

namespace Timely

open Library

variable {S T : Type} [PartialOrder T] [DecidableLE T] [DecidableEq T] [Ord T] [LinearExtension T]
  [PathSummary S T]

/-! ### Ways -/

/-- One step between locations: along an edge, or across an operator by an internal summary. -/
inductive Way (S : Type) where
  | edge
  | internal (summary : S)

/-- The time to which a way takes a time, if it is defined there. -/
def Way.leads : Way S → T → Option T
  | edge, time => some time
  | internal summary, time => PathSummary.results_in summary time

namespace Builder

/-- The ways from one location to another. -/
def ways (builder : Builder S) (origin target : Location) : List (Way S) :=
  match origin.port with
  | .target port =>
    ((builder.summaries_of origin.node port).getD []).zipIdx.flatMap fun entry =>
      if Location.new_source origin.node entry.2 = target then entry.1.elements.map Way.internal
      else []
  | .source port =>
    ((builder.targets_of origin.node port).getD []).filterMap fun other =>
      if Location.from_target other = target then some Way.edge else none

/-- A time at a location is implied as often as there are ways that lead there. -/
theorem count_implied (builder : Builder S) (origin target : Location) (start time : T) :
    (builder.implied origin start).count (time, target) =
      (builder.ways origin target).countP fun way => way.leads start = some time := by
  unfold implied ways
  cases origin.port with
  | target port =>
    change List.count (time, target) (List.flatMap _ _) = List.countP _ (List.flatMap _ _)
    rw [List.count_flatMap, List.countP_flatMap]
    refine congrArg List.sum (List.map_congr_left fun entry _ => ?_)
    simp only [Function.comp_apply]
    rw [List.count_filterMap]
    by_cases htarget : Location.new_source origin.node entry.2 = target
    · rw [if_pos htarget, List.countP_map]
      refine List.countP_congr fun summary _ => ?_
      simp only [Function.comp_apply, Way.leads, htarget, beq_iff_eq, Option.map_eq_some_iff,
        Prod.mk.injEq, and_true, exists_eq_right]
      exact decide_eq_true_iff.symm
    · rw [if_neg htarget, List.countP_nil, List.countP_eq_zero]
      intro summary _
      simp [htarget]
  | source port =>
    change List.count (time, target) (List.map _ _) = List.countP _ (List.filterMap _ _)
    rw [List.count_eq_countP, List.countP_map, List.countP_filterMap]
    refine List.countP_congr fun other _ => ?_
    by_cases htarget : Location.from_target other = target
    · simp [Way.leads, htarget]
    · simp [htarget]

end Builder

namespace Tracker

/-! ### Reasons -/

/-- The reasons for a time at a location: the locations before, the ways from there, and the times in
    their implication frontiers that the ways take to this time. -/
def reasons (tracker : Tracker S T) (location : Location) (time : T) : List (Location × Way S × T) :=
  tracker.builder.locations.flatMap fun origin =>
    (tracker.implications_at origin).frontier.flatMap fun start =>
      ((tracker.builder.ways origin location).filter fun way => way.leads start = some time).map
        fun way => (origin, way, start)

/-- The weight of the reasons is their number. -/
theorem support_eq_length (tracker : Tracker S T) (location : Location) (time : T) :
    tracker.support location time = (tracker.reasons location time).length := by
  unfold support contributions reasons
  rw [List.sum_toFinset _ tracker.builder.nodup_locations, List.length_flatMap, Nat.cast_list_sum,
    List.map_map]
  refine congrArg List.sum (List.map_congr_left fun origin _ => ?_)
  simp only [Function.comp_apply]
  rw [List.length_flatMap, Nat.cast_list_sum, List.map_map]
  refine congrArg List.sum (List.map_congr_left fun start _ => ?_)
  simp only [Function.comp_apply]
  rw [List.length_map, ← List.countP_eq_length_filter, Builder.count_implied]

/-! ### The states of the loop -/

/-- The states in which a call of `propagate_all` is at the head of its worklist loop: after the
    buffered changes have been drained, and after each iteration. -/
inductive AtHead (tracker : Tracker S T) : Tracker S T → Prop
  | drained {loaded : Tracker S T} :
      tracker.drain_target_changes.bind drain_source_changes = some loaded → AtHead tracker loaded
  | iterated {before after : Tracker S T} {entry : (T × Location) × ℤ}
      {rest : Worklist (T × Location)} :
      AtHead tracker before → before.worklist.next = some (entry, rest) →
      before.circulate_step entry rest = some after → AtHead tracker after

theorem AtHead.circulate {tracker before after : Tracker S T} {fuel : ℕ} (h : AtHead tracker before)
    (hcirculate : Tracker.circulate fuel before = some after) :
    AtHead tracker after ∧ after.worklist.next = none := by
  induction fuel generalizing before with
  | zero =>
    rw [Tracker.circulate] at hcirculate
    split at hcirculate
    case isTrue hnone =>
      cases hcirculate
      exact ⟨h, Option.isNone_iff_eq_none.mp hnone⟩
    case isFalse => cases hcirculate
  | succ fuel ih =>
    rw [Tracker.circulate] at hcirculate
    split at hcirculate
    case h_1 hnone =>
      cases hcirculate
      exact ⟨h, hnone⟩
    case h_2 entry rest hnext =>
      obtain ⟨middle, hmiddle, hrest⟩ := Option.bind_eq_some_iff.mp hcirculate
      exact ih (h.iterated hnext hmiddle) hrest

/-- From the head of the loop the rest of a call is what it is from the start. -/
theorem AtHead.propagates {tracker before after : Tracker S T} (h : AtHead tracker before) {fuel : ℕ}
    (hcirculate : Tracker.circulate fuel before = some after) : tracker.Propagates after := by
  induction h generalizing fuel with
  | @drained loaded hloaded =>
    refine ⟨fuel, ?_⟩
    rw [propagate_all, hloaded, Option.bind_some]
    exact hcirculate
  | @iterated before middle entry rest _ hnext hstep ih =>
    have hmore : Tracker.circulate (fuel + 1) before = some after := by
      rw [Tracker.circulate, hnext]
      exact Option.bind_eq_some_iff.mpr ⟨middle, hstep, hcirculate⟩
    exact ih hmore

/-- A call returns a state when it is at the head of its loop with an empty worklist. -/
theorem propagates_iff_atHead {tracker after : Tracker S T} :
    tracker.Propagates after ↔ AtHead tracker after ∧ after.worklist.next = none := by
  constructor
  · rintro ⟨fuel, h⟩
    obtain ⟨loaded, hloaded, hcirculate⟩ := Option.bind_eq_some_iff.mp h
    exact (AtHead.drained hloaded).circulate hcirculate
  · rintro ⟨hhead, hnone⟩
    exact hhead.propagates (circulate_of_next_eq_none hnone 0)

theorem Balanced.atHead {tracker state : Tracker S T} (hbalanced : tracker.Balanced)
    (h : AtHead tracker state) : state.Balanced := by
  induction h with
  | drained hloaded =>
    obtain ⟨middle, htargets, hsources⟩ := Option.bind_eq_some_iff.mp hloaded
    rw [drain_target_changes_eq] at htargets
    rw [drain_source_changes_eq] at hsources
    have hmiddle := (sameImplications_of_apply_changes (hbalanced.with_buffers _ _) htargets).1
    exact (sameImplications_of_apply_changes (hmiddle.with_buffers _ _) hsources).1
  | iterated _ hnext hstep ih =>
    obtain ⟨changes, hcirculated⟩ := circulated_of_circulate_step ih.implications hstep
    exact hcirculated.balanced ih (Worklist.popped_of_next hnext)

/-! ### What an owner does to a tracker -/

/-- A call, a question whether anything is tracked, or a change of the batches that the tracker
    lends to its owner. -/
inductive Owned : Tracker S T → Tracker S T → Prop
  | call {tracker after : Tracker S T} {call : Call T} :
      Performs tracker call after → Owned tracker after
  | tracking_anything {tracker : Tracker S T} : Owned tracker tracker.after_tracking_anything
  | pushed {tracker : Tracker S T} (changes : ChangeBatch (Location × T)) :
      Owned tracker { tracker with pushed_changes := changes }
  | pushed_output {tracker : Tracker S T} (changes : List (ChangeBatch T)) :
      changes.length = tracker.output_changes.length →
      Owned tracker { tracker with output_changes := changes }

theorem Quiet.owned {tracker after : Tracker S T} (h : tracker.Quiet) (howned : Owned tracker after) :
    after.Quiet := by
  cases howned with
  | call hperforms =>
    cases hperforms with
    | update_target => exact ⟨⟨⟨h.pointstamps, h.implications⟩, h.balance⟩, h.worklist_nil⟩
    | update_source => exact ⟨⟨⟨h.pointstamps, h.implications⟩, h.balance⟩, h.worklist_nil⟩
    | propagate_all hpropagates => exact (hpropagates.propagated h.toBalanced).quiet
  | tracking_anything =>
    unfold after_tracking_anything
    split
    · exact ⟨⟨⟨h.pointstamps, h.implications⟩, h.balance⟩, h.worklist_nil⟩
    · exact ⟨⟨⟨h.pointstamps, h.implications⟩, h.balance⟩, h.worklist_nil⟩
  | pushed => exact ⟨⟨⟨h.pointstamps, h.implications⟩, h.balance⟩, h.worklist_nil⟩
  | pushed_output => exact ⟨⟨⟨h.pointstamps, h.implications⟩, h.balance⟩, h.worklist_nil⟩

section Reachable

variable [PartialOrder S] [DecidableLE S] {builder : Builder S} {allocated tracker : Tracker S T}

/-- Between calls a tracker is at rest. -/
theorem Quiet.of_owned (hallocated : Allocated builder allocated)
    (howned : Relation.ReflTransGen Owned allocated tracker) : tracker.Quiet := by
  induction howned with
  | refl => exact hallocated.fresh.tracking.quiet
  | tail _ hstep ih => exact ih.owned hstep

/-- At the head of each iteration, the count of an implication and what the worklist holds for it add
    up to the pointstamp and the reasons that it has. -/
theorem worklist_loop_balance (hallocated : Allocated builder allocated)
    (howned : Relation.ReflTransGen Owned allocated tracker) {state : Tracker S T}
    (hstate : AtHead tracker state) (location : Location) (time : T) :
    (state.implications_at location).count_for time +
        tally state.worklist.entries (time, location) =
      (if time ∈ (state.pointstamps_at location).frontier then 1 else 0) +
        (state.reasons location time).length := by
  have hbalanced := (Quiet.of_owned hallocated howned).toBalanced.atHead hstate
  rw [← support_eq_length]
  exact hbalanced.balance location time

end Reachable

/-- The state after the first iteration of a call, if there is one. -/
def first_iteration (tracker : Tracker S T) : Option (Tracker S T) :=
  (tracker.drain_target_changes.bind drain_source_changes).bind fun loaded =>
    loaded.worklist.next.bind fun popped => loaded.circulate_step popped.1 popped.2

theorem atHead_of_first_iteration {tracker state : Tracker S T}
    (h : tracker.first_iteration = some state) : AtHead tracker state := by
  obtain ⟨loaded, hloaded, h⟩ := Option.bind_eq_some_iff.mp h
  obtain ⟨⟨entry, rest⟩, hnext, hstep⟩ := Option.bind_eq_some_iff.mp h
  exact (AtHead.drained hloaded).iterated hnext hstep

/-- The tracker of the module example, with one time added at a source. -/
def example_updated : Tracker (Unsigned 64) (Unsigned 64) := example_tracker.update_source ⟨0, 0⟩ 17 1

theorem example_iterates : example_updated.first_iteration.isSome := by decide

def example_iterated : Tracker (Unsigned 64) (Unsigned 64) :=
  example_updated.first_iteration.get example_iterates

theorem example_atHead : AtHead example_updated example_iterated :=
  atHead_of_first_iteration (Option.some_get example_iterates).symm

theorem worklist_loop_balance_example :
    (example_iterated.reasons (Location.new_target 1 0) 17).length = 1 ∧
    (example_iterated.implications_at (Location.new_target 1 0)).count_for 17 = 0 ∧
    tally example_iterated.worklist.entries (17, Location.new_target 1 0) = 1 := by
  have hreasons : (example_iterated.reasons (Location.new_target 1 0) 17).length = 1 := by decide
  have hcount : (example_iterated.implications_at (Location.new_target 1 0)).count_for 17 = 0 := by
    decide
  have hpointstamp :
      17 ∉ (example_iterated.pointstamps_at (Location.new_target 1 0)).frontier := by decide
  have hbalance := worklist_loop_balance example_allocated
    (Relation.ReflTransGen.single (Owned.call (Performs.update_source ⟨0, 0⟩ 17 1)))
    example_atHead (Location.new_target 1 0) 17
  refine ⟨hreasons, hcount, ?_⟩
  rw [hcount, if_neg hpointstamp, hreasons] at hbalance
  omega

end Tracker

end Timely
