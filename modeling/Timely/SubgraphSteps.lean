/-
  Timely/SubgraphSteps.lean
  =========================
  **What the methods of a subgraph do.**

  One statement for each method, with everything the later invariants need: what
  committing does to the tracker, what delivering does to the children, what
  reporting does to the internal capabilities, and what activating a child
  leaves alone.
-/
import Timely.Subgraph
import Timely.Projection

set_option linter.unusedSectionVars false

namespace Timely

open Library

namespace Subgraph

variable {O S TOuter TInner : Type}
  [PartialOrder TOuter] [DecidableLE TOuter] [DecidableEq TOuter] [Ord TOuter]
  [LinearExtension TOuter]
  [PartialOrder TInner] [DecidableLE TInner] [DecidableEq TInner] [Ord TInner]
  [LinearExtension TInner] [Refines TOuter TInner]

/-! ### Trackers that differ in their buffers only -/

/-- Two trackers that agree on everything but buffered and drained changes. -/
structure SameCounts (first second : Tracker S TInner) : Prop where
  builder : second.builder = first.builder
  per_operator : second.per_operator = first.per_operator
  worklist : second.worklist = first.worklist

theorem SameCounts.refl (tracker : Tracker S TInner) : SameCounts tracker tracker := ⟨rfl, rfl, rfl⟩

theorem SameCounts.trans {first second third : Tracker S TInner} (h : SameCounts first second)
    (h' : SameCounts second third) : SameCounts first third :=
  ⟨h'.builder.trans h.builder, h'.per_operator.trans h.per_operator, h'.worklist.trans h.worklist⟩

section Views

variable {first second : Tracker S TInner} (h : SameCounts first second)

include h

theorem SameCounts.pointstamps_at (location : Location) :
    second.pointstamps_at location = first.pointstamps_at location :=
  Tracker.pointstamps_at_congr h.per_operator location

theorem SameCounts.implications_at (location : Location) :
    second.implications_at location = first.implications_at location :=
  Tracker.implications_at_congr h.per_operator location

theorem SameCounts.summaries_at (location : Location) :
    second.summaries_at location = first.summaries_at location :=
  Tracker.summaries_at_congr h.per_operator location

variable [PathSummary S TInner]

theorem SameCounts.quiet (hquiet : first.Quiet) : second.Quiet where
  pointstamps location := by
    rw [h.pointstamps_at]
    exact hquiet.pointstamps location
  implications location := by
    rw [h.implications_at]
    exact hquiet.implications location
  balance location time := by
    have hsupport : second.support location time = first.support location time := by
      unfold Tracker.support
      simp only [h.builder, h.implications_at]
    rw [h.implications_at, h.pointstamps_at, h.worklist, hsupport]
    exact hquiet.balance location time
  worklist_nil := by
    rw [h.worklist]
    exact hquiet.worklist_nil

theorem SameCounts.projected (output : ℕ) (weight : TInner → ℤ) :
    second.projected output weight = first.projected output weight := by
  unfold Tracker.projected
  simp only [h.builder, h.pointstamps_at, h.summaries_at]

end Views

theorem sameCounts_update (tracker : Tracker S TInner) (location : Location) (time : TInner)
    (value : ℤ) : SameCounts tracker (tracker.update location time value) := by
  unfold Tracker.update
  split
  · exact ⟨rfl, rfl, rfl⟩
  · exact ⟨rfl, rfl, rfl⟩

theorem buffered_update (tracker : Tracker S TInner) (location : Location) (time : TInner)
    (value : ℤ) (other : Location) (otherTime : TInner) :
    (tracker.update location time value).buffered other otherTime =
      tracker.buffered other otherTime +
        if (location, time) = (other, otherTime) then value else 0 := by
  obtain ⟨node, port⟩ := location
  cases port with
  | target port => exact Tracker.buffered_update_target tracker ⟨node, port⟩ time value other otherTime
  | source port => exact Tracker.buffered_update_source tracker ⟨node, port⟩ time value other otherTime

/-! ### Committing -/

/-- What committing pointstamps does. -/
structure Committed (changes : List ((Location × TInner) × ℤ))
    (subgraph after : Subgraph O S TOuter TInner) : Prop where
  same : SameCounts subgraph.pointstamp_tracker after.pointstamp_tracker
  pushed : after.pointstamp_tracker.pushed_changes = subgraph.pointstamp_tracker.pushed_changes
  outputs : after.pointstamp_tracker.output_changes = subgraph.pointstamp_tracker.output_changes
  buffered : ∀ location time, after.pointstamp_tracker.buffered location time =
    subgraph.pointstamp_tracker.buffered location time +
      if location.node = 0 then 0 else tally changes (location, time)
  children : after.children = subgraph.children
  capabilities : after.output_capabilities = subgraph.output_capabilities
  internals : after.shared_progress.internals = subgraph.shared_progress.internals
  frontiers : after.shared_progress.frontiers = subgraph.shared_progress.frontiers
  locals : after.local_pointstamp = subgraph.local_pointstamp
  wrappers : after.ghost_wrapper = subgraph.ghost_wrapper ∧
    after.wrapper_ghost = subgraph.wrapper_ghost
  final : after.final_pointstamp = subgraph.final_pointstamp

theorem Committed.refl (subgraph : Subgraph O S TOuter TInner) : Committed [] subgraph subgraph :=
  ⟨SameCounts.refl _, rfl, rfl, fun _ _ => by simp, rfl, rfl, rfl, rfl, rfl, ⟨rfl, rfl⟩, rfl⟩

theorem Committed.snoc {changes : List ((Location × TInner) × ℤ)}
    {subgraph middle after : Subgraph O S TOuter TInner} {change : (Location × TInner) × ℤ}
    (h : Committed changes subgraph middle) (hcommit : middle.commit_pointstamp change = some after) :
    Committed (changes ++ [change]) subgraph after := by
  obtain ⟨⟨location, time⟩, delta⟩ := change
  simp only [commit_pointstamp] at hcommit
  by_cases hnode : location.node = 0
  · -- a statement about child zero does not reach the tracker
    have hbuffered : ∀ other otherTime,
        (if other.node = 0 then 0 else tally (changes ++ [((location, time), delta)]) (other, otherTime)) =
          if other.node = 0 then 0 else tally changes (other, otherTime) := by
      intro other otherTime
      by_cases hother : other.node = 0
      · rw [if_pos hother, if_pos hother]
      · have hne : (location, time) ≠ (other, otherTime) := by
          rintro heq
          exact hother ((Prod.mk.inj heq).1 ▸ hnode)
        rw [if_neg hother, if_neg hother, tally_append, tally_cons, if_neg hne, tally_nil, add_zero,
          add_zero]
    rw [if_pos hnode] at hcommit
    split at hcommit
    all_goals
      obtain ⟨batches, _, rfl⟩ := Option.map_eq_some_iff.mp hcommit
      exact ⟨h.same, h.pushed, h.outputs, fun other otherTime => by
        rw [hbuffered]; exact h.buffered other otherTime, h.children, h.capabilities, h.internals,
        h.frontiers, h.locals, h.wrappers, h.final⟩
  · rw [if_neg hnode, Option.some.injEq] at hcommit
    subst hcommit
    refine ⟨h.same.trans (sameCounts_update _ _ _ _), ?_, ?_, ?_, h.children, h.capabilities,
      h.internals, h.frontiers, h.locals, h.wrappers, h.final⟩
    · rw [← h.pushed]
      simp only [Tracker.update]
      split <;> rfl
    · rw [← h.outputs]
      simp only [Tracker.update]
      split <;> rfl
    · intro other otherTime
      rw [buffered_update, h.buffered, tally_append, tally_cons, tally_nil, add_zero]
      by_cases heq : (location, time) = (other, otherTime)
      · obtain ⟨rfl, rfl⟩ := Prod.mk.inj heq
        rw [if_neg hnode, if_neg hnode, if_pos rfl, add_assoc]
      · rw [if_neg heq, add_zero]
        simp

theorem committed_of_commit_pointstamps {subgraph after : Subgraph O S TOuter TInner}
    (h : subgraph.commit_pointstamps = some after) :
    Committed subgraph.final_pointstamp.drain.1
      { subgraph with final_pointstamp := subgraph.final_pointstamp.drain.2 } after := by
  unfold commit_pointstamps at h
  generalize hstart : ({ subgraph with
    final_pointstamp := subgraph.final_pointstamp.drain.2 } : Subgraph O S TOuter TInner) = start at h ⊢
  exact (Run.of_foldlM h).invariant (P := fun done middle => Committed done start middle)
    (Committed.refl start) fun hdone hcommit => hdone.snoc hcommit

/-! ### Delivering -/

/-- What delivering propagated changes does.  A child that no change is for keeps its state,
    when no child stands in for another. -/
structure Delivered (changes : List ((Location × TInner) × ℤ))
    (subgraph after : Subgraph O S TOuter TInner) : Prop where
  tracker : after.pointstamp_tracker = subgraph.pointstamp_tracker
  capabilities : after.output_capabilities = subgraph.output_capabilities
  shared : after.shared_progress = subgraph.shared_progress
  locals : after.local_pointstamp = subgraph.local_pointstamp
  final : after.final_pointstamp = subgraph.final_pointstamp
  wrappers : after.ghost_wrapper = subgraph.ghost_wrapper ∧
    after.wrapper_ghost = subgraph.wrapper_ghost
  length : after.children.length = subgraph.children.length
  operator : ∀ index : ℕ, (after.children[index]?).map PerOperatorState.operator =
    (subgraph.children[index]?).map PerOperatorState.operator
  untouched : subgraph.ghost_wrapper = ∅ → ∀ index : ℕ,
    (∀ change ∈ changes, ∀ port, change.1.1 ≠ Location.new_target index port) →
    after.children[index]? = subgraph.children[index]?

theorem Delivered.refl (subgraph : Subgraph O S TOuter TInner) : Delivered [] subgraph subgraph :=
  ⟨rfl, rfl, rfl, rfl, rfl, ⟨rfl, rfl⟩, rfl, fun _ => rfl, fun _ _ _ => rfl⟩

/-- Changing one child through a function that keeps its operator. -/
theorem modify_child_cases {subgraph after : Subgraph O S TOuter TInner} {index : ℕ}
    {change : PerOperatorState O S TInner → Option (PerOperatorState O S TInner)}
    (h : subgraph.modify_child index change = some after) :
    ∃ child changed, subgraph.children[index]? = some child ∧ change child = some changed ∧
      after = { subgraph with children := subgraph.children.set index changed } := by
  unfold modify_child at h
  split at h
  case h_1 => cases h
  case h_2 child hchild =>
    obtain ⟨changed, hchanged, rfl⟩ := Option.map_eq_some_iff.mp h
    exact ⟨child, changed, hchild, hchanged, rfl⟩

theorem operator_push_frontier {port : ℕ} {time : TInner} {diff : ℤ}
    {child changed : PerOperatorState O S TInner} (h : push_frontier port time diff child = some changed) :
    changed.operator = child.operator := by
  obtain ⟨frontiers, _, rfl⟩ := Option.map_eq_some_iff.mp h
  rfl

theorem operator_push_wrapper_frontier {ghost port : ℕ} {time : TInner} {diff : ℤ}
    {child changed : PerOperatorState O S TInner}
    (h : push_wrapper_frontier ghost port time diff child = some changed) :
    changed.operator = child.operator := by
  unfold push_wrapper_frontier at h
  split at h
  case h_1 => cases h
  case h_2 =>
    obtain ⟨frontiers, _, rfl⟩ := Option.map_eq_some_iff.mp h
    rfl

/-- Replacing a child by one with the same operator keeps the list of operators. -/
theorem map_operator_set {children : List (PerOperatorState O S TInner)} {index : ℕ}
    {child changed : PerOperatorState O S TInner} (hchild : children[index]? = some child)
    (hoperator : changed.operator = child.operator) (other : ℕ) :
    ((children.set index changed)[other]?).map PerOperatorState.operator =
      (children[other]?).map PerOperatorState.operator := by
  rw [← List.getElem?_map, ← List.getElem?_map, map_set_of_eq hchild hoperator]

theorem Delivered.snoc {changes : List ((Location × TInner) × ℤ)}
    {subgraph : Subgraph O S TOuter TInner} {state next : Subgraph O S TOuter TInner × Bool}
    {change : (Location × TInner) × ℤ} (h : Delivered changes subgraph state.1)
    (hdeliver : deliver_change state change = some next) :
    Delivered (changes ++ [change]) subgraph next.1 := by
  obtain ⟨⟨⟨node, port⟩, time⟩, diff⟩ := change
  have hunchanged : ∀ index : ℕ, (∀ other ∈ changes ++ [((⟨node, port⟩, time), diff)], ∀ port,
      other.1.1 ≠ Location.new_target index port) → ∀ other ∈ changes, ∀ port,
      other.1.1 ≠ Location.new_target index port := by
    intro index hall other hother
    exact hall other (List.mem_append_left _ hother)
  cases port with
  | source port =>
    -- sources are not actionable
    cases hdeliver
    exact ⟨h.tracker, h.capabilities, h.shared, h.locals, h.final, h.wrappers, h.length, h.operator,
      fun hnone index hall => h.untouched hnone index (hunchanged index hall)⟩
  | target port =>
    simp only [deliver_change] at hdeliver
    split at hdeliver
    case h_1 => cases hdeliver
    case h_2 found hfound =>
      split at hdeliver
      case h_1 wrapper hwrapper =>
        obtain ⟨changed, hmodified, rfl⟩ := Option.map_eq_some_iff.mp hdeliver
        obtain ⟨child, replaced, hchild, hpush, rfl⟩ := modify_child_cases hmodified
        refine ⟨h.tracker, h.capabilities, h.shared, h.locals, h.final, h.wrappers, ?_, ?_, ?_⟩
        · rw [List.length_set]
          exact h.length
        · intro index
          rw [map_operator_set hchild (operator_push_wrapper_frontier hpush)]
          exact h.operator index
        · intro hnone
          rw [h.wrappers.1, hnone, AList.lookup_empty] at hwrapper
          cases hwrapper
      case h_2 =>
        obtain ⟨changed, hmodified, rfl⟩ := Option.map_eq_some_iff.mp hdeliver
        obtain ⟨child, replaced, hchild, hpush, rfl⟩ := modify_child_cases hmodified
        refine ⟨h.tracker, h.capabilities, h.shared, h.locals, h.final, h.wrappers, ?_, ?_, ?_⟩
        · rw [List.length_set]
          exact h.length
        · intro index
          rw [map_operator_set hchild (operator_push_frontier hpush)]
          exact h.operator index
        · intro hnone index hall
          have hne : node ≠ index := by
            rintro rfl
            exact hall _ (List.mem_append_right _ (List.mem_singleton_self _)) port rfl
          rw [List.getElem?_set_ne hne]
          exact h.untouched hnone index (hunchanged index hall)

theorem delivered_of_deliver_changes {subgraph after : Subgraph O S TOuter TInner}
    (h : subgraph.deliver_changes = some after) :
    Delivered subgraph.pointstamp_tracker.pushed_changes.drain.1
      { subgraph with
        pointstamp_tracker :=
          { subgraph.pointstamp_tracker with
            pushed_changes := subgraph.pointstamp_tracker.pushed_changes.drain.2 } } after := by
  obtain ⟨⟨last, flag⟩, hrun, rfl⟩ := Option.map_eq_some_iff.mp h
  exact (Run.of_foldlM hrun).invariant
    (P := fun done (middle : Subgraph O S TOuter TInner × Bool) => Delivered done _ middle.1)
    (Delivered.refl _) fun hdone hdeliver => hdone.snoc hdeliver

/-! ### Reporting -/

/-- What reporting the first `count` outputs does. -/
structure Reported (count : ℕ) (subgraph after : Subgraph O S TOuter TInner) : Prop where
  same : SameCounts subgraph.pointstamp_tracker after.pointstamp_tracker
  pushed : after.pointstamp_tracker.pushed_changes = subgraph.pointstamp_tracker.pushed_changes
  buffered : after.pointstamp_tracker.target_changes = subgraph.pointstamp_tracker.target_changes ∧
    after.pointstamp_tracker.source_changes = subgraph.pointstamp_tracker.source_changes
  children : after.children = subgraph.children
  locals : after.local_pointstamp = subgraph.local_pointstamp
  final : after.final_pointstamp = subgraph.final_pointstamp
  wrappers : after.ghost_wrapper = subgraph.ghost_wrapper ∧
    after.wrapper_ghost = subgraph.wrapper_ghost
  frontiers : after.shared_progress.frontiers = subgraph.shared_progress.frontiers
  length : after.shared_progress.internals.length = subgraph.shared_progress.internals.length
  reported : ∀ output < count, ∃ changes capabilities,
    subgraph.pointstamp_tracker.output_changes[output]? = some changes ∧
    subgraph.output_capabilities[output]? = some capabilities ∧
    after.pointstamp_tracker.output_changes[output]? = some changes.drain.2 ∧
    after.output_capabilities[output]? = some (capabilities.update_iter
      (changes.drain.1.map fun change => (Refines.to_outer change.1, change.2))).2 ∧
    after.shared_progress.internals[output]? =
      (subgraph.shared_progress.internals[output]?).map fun internal =>
        (capabilities.update_iter (changes.drain.1.map fun change =>
          (Refines.to_outer change.1, change.2))).1.foldl
            (fun kept change => kept.update change.1 change.2) internal
  rest : ∀ output, count ≤ output →
    after.pointstamp_tracker.output_changes[output]? =
      subgraph.pointstamp_tracker.output_changes[output]? ∧
    after.output_capabilities[output]? = subgraph.output_capabilities[output]? ∧
    after.shared_progress.internals[output]? = subgraph.shared_progress.internals[output]?

theorem Reported.refl (subgraph : Subgraph O S TOuter TInner) : Reported 0 subgraph subgraph :=
  ⟨SameCounts.refl _, rfl, ⟨rfl, rfl⟩, rfl, rfl, rfl, ⟨rfl, rfl⟩, rfl, rfl,
    fun _ h => absurd h (Nat.not_lt_zero _), fun _ _ => ⟨rfl, rfl, rfl⟩⟩

theorem Reported.snoc {count : ℕ} {subgraph middle after : Subgraph O S TOuter TInner}
    (h : Reported count subgraph middle) (hreport : middle.report_output count = some after) :
    Reported (count + 1) subgraph after := by
  unfold report_output at hreport
  split at hreport
  case h_2 => cases hreport
  case h_1 changes capabilities hchanges hcapabilities =>
    cases hreport
    obtain ⟨hchangesBefore, hcapabilitiesBefore, hinternalsBefore⟩ := h.rest count le_rfl
    refine ⟨h.same.trans ⟨rfl, rfl, rfl⟩, h.pushed, h.buffered, h.children, h.locals, h.final,
      h.wrappers, h.frontiers, ?_, ?_, ?_⟩
    · rw [List.length_modify]
      exact h.length
    · intro output houtput
      by_cases hlast : output = count
      · -- the output that has just been reported
        subst hlast
        refine ⟨changes, capabilities, by rw [← hchangesBefore, hchanges],
          by rw [← hcapabilitiesBefore, hcapabilities], ?_, ?_, ?_⟩
        · exact List.getElem?_set_self (List.getElem?_eq_some_iff.mp hchanges).1
        · exact List.getElem?_set_self (List.getElem?_eq_some_iff.mp hcapabilities).1
        · rw [← hinternalsBefore, List.getElem?_modify_eq]
          rfl
      · -- an earlier output keeps its report
        obtain ⟨changes', capabilities', hfirst, hsecond, hthird, hfourth, hfifth⟩ :=
          h.reported output (by omega)
        refine ⟨changes', capabilities', hfirst, hsecond, ?_, ?_, ?_⟩
        · rw [List.getElem?_set_ne (Ne.symm hlast)]
          exact hthird
        · rw [List.getElem?_set_ne (Ne.symm hlast)]
          exact hfourth
        · exact (List.getElem?_modify_ne _ _ (Ne.symm hlast)).trans hfifth
    · intro output houtput
      have hne : count ≠ output := by omega
      obtain ⟨hfirst, hsecond, hthird⟩ := h.rest output (by omega)
      refine ⟨?_, ?_, ?_⟩
      · rw [List.getElem?_set_ne hne]
        exact hfirst
      · rw [List.getElem?_set_ne hne]
        exact hsecond
      · exact (List.getElem?_modify_ne _ _ hne).trans hthird

theorem reported_of_report_outputs {subgraph after : Subgraph O S TOuter TInner}
    (h : subgraph.report_outputs = some after) :
    Reported subgraph.shared_progress.internals.length subgraph after := by
  unfold report_outputs at h
  have hall : ∀ (count : ℕ) (last : Subgraph O S TOuter TInner),
      (List.range count).foldlM report_output subgraph = some last → Reported count subgraph last := by
    intro count
    induction count with
    | zero =>
      intro last hrun
      cases hrun
      exact Reported.refl subgraph
    | succ count ih =>
      intro last hrun
      rw [List.range_succ] at hrun
      obtain ⟨middle, hmiddle, hlast⟩ := foldlM_concat_cases hrun
      exact (ih middle hmiddle).snoc hlast
  exact hall _ after h

/-! ### Propagating -/

/-- The states that `propagate_pointstamps` goes through: committed, propagated, delivered. -/
structure Stages [PathSummary S TInner] (subgraph committed propagated delivered after :
    Subgraph O S TOuter TInner) : Prop where
  commit : subgraph.commit_pointstamps = some committed
  propagate : committed.pointstamp_tracker.Propagates propagated.pointstamp_tracker
  propagated_eq : propagated =
    { committed with pointstamp_tracker := propagated.pointstamp_tracker }
  deliver : propagated.deliver_changes = some delivered
  report : delivered.report_outputs = some after

theorem Propagates.stages [PathSummary S TInner] {subgraph after : Subgraph O S TOuter TInner}
    (h : subgraph.Propagates after) :
    ∃ committed propagated delivered, Stages subgraph committed propagated delivered after := by
  obtain ⟨fuel, h⟩ := h
  unfold propagate_pointstamps at h
  obtain ⟨delivered, hdelivered, hreport⟩ := Option.bind_eq_some_iff.mp h
  obtain ⟨printed, hprinted, hdeliver⟩ := Option.bind_eq_some_iff.mp hdelivered
  obtain ⟨propagated, hpropagated, hprint⟩ := Option.bind_eq_some_iff.mp hprinted
  obtain ⟨committed, hcommit, hpropagate⟩ := Option.bind_eq_some_iff.mp hpropagated
  obtain ⟨tracker, htracker, rfl⟩ := Option.map_eq_some_iff.mp hpropagate
  unfold print_children at hprint
  split at hprint
  · cases hprint
    exact ⟨committed, _, delivered, hcommit, ⟨fuel, htracker⟩, rfl, hdeliver, hreport⟩
  · cases hprint

section Effects

variable [PathSummary S TInner] {subgraph committed propagated delivered after :
  Subgraph O S TOuter TInner} (h : Stages subgraph committed propagated delivered after)

include h

/-- Delivering and reporting leave the counts that propagating has settled. -/
theorem Stages.same : SameCounts propagated.pointstamp_tracker after.pointstamp_tracker := by
  refine SameCounts.trans ?_ (reported_of_report_outputs h.report).same
  rw [(delivered_of_deliver_changes h.deliver).tracker]
  exact ⟨rfl, rfl, rfl⟩

theorem Stages.buffered (location : Location) (time : TInner) :
    after.pointstamp_tracker.buffered location time =
      propagated.pointstamp_tracker.buffered location time := by
  have hreported := reported_of_report_outputs h.report
  unfold Tracker.buffered
  rw [hreported.buffered.1, hreported.buffered.2, (delivered_of_deliver_changes h.deliver).tracker]

/-- All that was pushed has been delivered. -/
theorem Stages.pushed : after.pointstamp_tracker.pushed_changes = ChangeBatch.new := by
  rw [(reported_of_report_outputs h.report).pushed, (delivered_of_deliver_changes h.deliver).tracker]
  rfl

theorem Stages.counted (hquiet : subgraph.pointstamp_tracker.Quiet) :
    Tracker.Propagated committed.pointstamp_tracker propagated.pointstamp_tracker :=
  h.propagate.propagated ((committed_of_commit_pointstamps h.commit).same.quiet hquiet).toBalanced

/-- What is pushed has no zero differences. -/
theorem Stages.nonZero (hquiet : subgraph.pointstamp_tracker.Quiet)
    (hpushed : subgraph.pointstamp_tracker.pushed_changes = ChangeBatch.new) :
    propagated.pointstamp_tracker.pushed_changes.NonZero := by
  have hcommitted := committed_of_commit_pointstamps h.commit
  refine h.propagate.nonZero_pushed (hcommitted.same.quiet hquiet).toBalanced ?_
  rw [hcommitted.pushed, hpushed]
  exact ChangeBatch.nonZero_new

/-- What is pushed is what changes in the implications frontiers. -/
theorem Stages.pushed_value (hquiet : subgraph.pointstamp_tracker.Quiet)
    (hpushed : subgraph.pointstamp_tracker.pushed_changes = ChangeBatch.new) (location : Location)
    (time : TInner) :
    propagated.pointstamp_tracker.pushed_changes.value (location, time) =
      (if time ∈ (propagated.pointstamp_tracker.implications_at location).frontier then 1 else 0) -
        (if time ∈ (subgraph.pointstamp_tracker.implications_at location).frontier then 1 else 0) := by
  have hcommitted := committed_of_commit_pointstamps h.commit
  rw [(h.counted hquiet).pushed, hcommitted.pushed, hpushed, ChangeBatch.value_new, zero_add,
    hcommitted.same.implications_at]

end Effects

/-! ### Activating -/

/-- What activating a child does: the child is scheduled, reviewed and extracted. -/
structure Activated [Operate O TInner] (child_index : ℕ) (incomplete : Bool)
    (child scheduled reviewed : PerOperatorState O S TInner)
    (subgraph counted after : Subgraph O S TOuter TInner) : Prop where
  child_eq : subgraph.children[child_index]? = some child
  schedule : child.schedule = some (incomplete, scheduled)
  count : subgraph.set_incomplete child_index incomplete = some counted
  review : counted.review_child child_index incomplete scheduled = some reviewed
  extract : counted.extract_child child_index reviewed = some after

theorem activated_of_activate_child [Operate O TInner] {subgraph after : Subgraph O S TOuter TInner}
    {child_index : ℕ} {incomplete : Bool}
    (h : subgraph.activate_child child_index = some (incomplete, after)) :
    ∃ child scheduled reviewed counted,
      Activated child_index incomplete child scheduled reviewed subgraph counted after := by
  unfold activate_child at h
  split at h
  case h_1 => cases h
  case h_2 child hchild =>
    split at h
    case h_1 => cases h
    case h_2 flag scheduled hscheduled =>
      obtain ⟨extracted, hextracted, heq⟩ := Option.map_eq_some_iff.mp h
      obtain ⟨rfl, rfl⟩ := Prod.mk.inj heq
      obtain ⟨counted, hcounted, hrest⟩ := Option.bind_eq_some_iff.mp hextracted
      obtain ⟨reviewed, hreviewed, hextract⟩ := Option.bind_eq_some_iff.mp hrest
      exact ⟨child, scheduled, reviewed, counted, hchild, hscheduled, hcounted, hreviewed, hextract⟩

theorem set_incomplete_cases {subgraph after : Subgraph O S TOuter TInner} {child_index : ℕ}
    {flag : Bool} (h : subgraph.set_incomplete child_index flag = some after) :
    ∃ incomplete incomplete_count, after =
      { subgraph with incomplete := incomplete, incomplete_count := incomplete_count } := by
  unfold set_incomplete at h
  split at h
  case h_1 => cases h
  case h_2 =>
    split_ifs at h
    · cases h
      exact ⟨_, _, rfl⟩
    · cases h
      exact ⟨_, _, rfl⟩
    · cases h
      exact ⟨_, _, rfl⟩

/-- Activating a child leaves the tracker and what the scope shares with its parent alone. -/
structure Untracked (subgraph after : Subgraph O S TOuter TInner) : Prop where
  tracker : after.pointstamp_tracker = subgraph.pointstamp_tracker
  capabilities : after.output_capabilities = subgraph.output_capabilities
  shared : after.shared_progress = subgraph.shared_progress
  wrappers : after.ghost_wrapper = subgraph.ghost_wrapper ∧
    after.wrapper_ghost = subgraph.wrapper_ghost

theorem untracked_of_activate_child [Operate O TInner] {subgraph after : Subgraph O S TOuter TInner}
    {child_index : ℕ} {incomplete : Bool}
    (h : subgraph.activate_child child_index = some (incomplete, after)) :
    Untracked subgraph after := by
  obtain ⟨child, scheduled, reviewed, counted, hactivated⟩ := activated_of_activate_child h
  obtain ⟨_, _, rfl⟩ := set_incomplete_cases hactivated.count
  obtain ⟨extracted, _, rfl⟩ := Option.map_eq_some_iff.mp hactivated.extract
  exact ⟨rfl, rfl, rfl, ⟨rfl, rfl⟩⟩

end Subgraph

end Timely
