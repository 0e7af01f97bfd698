/-
  Timely/Ledger.lean
  ==================
  **What a scope knows of its pointstamps.**

  A scope knows of a pointstamp what its tracker counts, and what it has received
  and not yet propagated.  No step but receiving changes this knowledge, once the
  children have expressed their initial capabilities: propagating moves it from
  the one place to the other, and children whose statements go to all workers
  report into another buffer.
-/
import Timely.SubgraphFrame

set_option linter.unusedSectionVars false

namespace Timely

open Library

/-- A step that `schedule`, `set_external_summary` or the surroundings of an initialized scope take by
    themselves.  Child zero is never activated. -/
def ScopeEvent.Scheduled {TOuter TInner : Type} : ScopeEvent TOuter TInner → Prop
  | .receive _ => False
  | .send_progress => False
  | .express_child _ => False
  | .activate_child child_index => child_index ≠ 0
  | _ => True

namespace Subgraph

variable {O S TOuter TInner : Type}
  [PartialOrder TOuter] [DecidableLE TOuter] [DecidableEq TOuter] [Ord TOuter]
  [LinearExtension TOuter]
  [PartialOrder TInner] [DecidableLE TInner] [DecidableEq TInner] [Ord TInner]
  [LinearExtension TInner] [Refines TOuter TInner]

/-- The count of a pointstamp. -/
def count (subgraph : Subgraph O S TOuter TInner) (key : Location × TInner) : ℤ :=
  (subgraph.pointstamp_tracker.pointstamps_at key.1).count_for key.2

/-- The count of a pointstamp, with what has been received and is not yet propagated. -/
def known (subgraph : Subgraph O S TOuter TInner) (key : Location × TInner) : ℤ :=
  subgraph.count key + subgraph.final_pointstamp.value key

/-- All children exchange what they report with the other workers. -/
def AllLocal (subgraph : Subgraph O S TOuter TInner) : Prop :=
  ∀ (index : ℕ) (child : PerOperatorState O S TInner), index ≠ 0 →
    subgraph.children[index]? = some child → child.is_local = true

theorem allLocal_of_tail {subgraph : Subgraph O S TOuter TInner}
    (h : ∀ child ∈ subgraph.children.tail, child.is_local = true) : subgraph.AllLocal := by
  intro index child hindex hchild
  obtain ⟨before, rfl⟩ := Nat.exists_eq_succ_of_ne_zero hindex
  refine h child (List.mem_iff_getElem?.mpr ⟨before, ?_⟩)
  rw [List.getElem?_tail]
  exact hchild

theorem allLocal_congr {subgraph after : Subgraph O S TOuter TInner}
    (h : after.children.map PerOperatorState.fixed = subgraph.children.map PerOperatorState.fixed)
    (hlocal : subgraph.AllLocal) : after.AllLocal := by
  intro index child hindex hchild
  have hfixed := congrArg (fun children : List (PerOperatorState O S TInner) => children[index]?) h
  simp only [List.getElem?_map, hchild, Option.map_some] at hfixed
  obtain ⟨before, hbefore, heq⟩ := Option.map_eq_some_iff.mp hfixed.symm
  have hbeforeLocal := hlocal index before hindex hbefore
  change before.fixed.is_local = true at hbeforeLocal
  rw [heq] at hbeforeLocal
  exact hbeforeLocal

/-- A scope between the calls of its methods: the tracker is at rest over the given graph, with changes
    of the scope's own inputs at most in its buffers. -/
structure AtRest [PathSummary S TInner] (topology : Builder S)
    (subgraph : Subgraph O S TOuter TInner) : Prop where
  builder : subgraph.pointstamp_tracker.builder = topology
  quiet : subgraph.pointstamp_tracker.Quiet
  buffered : ∀ location time, location.node ≠ 0 →
    subgraph.pointstamp_tracker.buffered location time = 0
  pushed : subgraph.pointstamp_tracker.pushed_changes = ChangeBatch.new

theorem AtRest.of_tracker [PathSummary S TInner] {topology : Builder S}
    {subgraph after : Subgraph O S TOuter TInner} (h : AtRest topology subgraph)
    (htracker : after.pointstamp_tracker = subgraph.pointstamp_tracker) : AtRest topology after := by
  obtain ⟨hbuilder, hquiet, hbuffered, hpushed⟩ := h
  rw [← htracker] at hbuilder hquiet hbuffered hpushed
  exact ⟨hbuilder, hquiet, hbuffered, hpushed⟩

/-! ### Steps that do not propagate -/

theorem buffered_accept (changes : List (ℕ × (TOuter × ℤ))) (tracker : Tracker S TInner)
    {location : Location} (hnode : location.node ≠ 0) (time : TInner) :
    (changes.foldl (fun tracker change => tracker.update_source ⟨0, change.1⟩
      (Refines.to_inner change.2.1) change.2.2) tracker).buffered location time =
        tracker.buffered location time := by
  induction changes generalizing tracker with
  | nil => rfl
  | cons change changes ih =>
    rw [List.foldl_cons, ih, Tracker.buffered_update_source, if_neg, add_zero]
    rintro heq
    exact hnode ((Prod.mk.inj heq).1 ▸ rfl)

/-- A step that leaves the counts and the received changes alone. -/
structure Unpropagated [PathSummary S TInner] (subgraph after : Subgraph O S TOuter TInner) : Prop where
  same : SameCounts subgraph.pointstamp_tracker after.pointstamp_tracker
  buffered : ∀ location time, location.node ≠ 0 →
    after.pointstamp_tracker.buffered location time =
      subgraph.pointstamp_tracker.buffered location time
  pushed : after.pointstamp_tracker.pushed_changes = subgraph.pointstamp_tracker.pushed_changes
  final : after.final_pointstamp = subgraph.final_pointstamp

variable [PathSummary S TInner]

theorem Unpropagated.of_tracker {subgraph after : Subgraph O S TOuter TInner}
    (htracker : after.pointstamp_tracker = subgraph.pointstamp_tracker)
    (hfinal : after.final_pointstamp = subgraph.final_pointstamp) : Unpropagated subgraph after := by
  refine ⟨?_, fun location time _ => ?_, ?_, hfinal⟩
  · rw [htracker]
    exact SameCounts.refl _
  · rw [htracker]
  · rw [htracker]

theorem SameCounts.count {subgraph after : Subgraph O S TOuter TInner}
    (h : SameCounts subgraph.pointstamp_tracker after.pointstamp_tracker) (key : Location × TInner) :
    after.count key = subgraph.count key := by
  unfold Subgraph.count
  rw [h.pointstamps_at]

theorem Unpropagated.known {subgraph after : Subgraph O S TOuter TInner}
    (h : Unpropagated subgraph after) (key : Location × TInner) :
    after.known key = subgraph.known key := by
  unfold Subgraph.known
  rw [h.same.count, h.final]

theorem AtRest.unpropagated {topology : Builder S} {subgraph after : Subgraph O S TOuter TInner}
    (h : AtRest topology subgraph) (hstep : Unpropagated subgraph after) : AtRest topology after where
  builder := hstep.same.builder.trans h.builder
  quiet := hstep.same.quiet h.quiet
  buffered location time hnode := by
    rw [hstep.buffered location time hnode]
    exact h.buffered location time hnode
  pushed := hstep.pushed.trans h.pushed

/-- Activating a child whose statements go to all workers receives nothing. -/
theorem final_activate_child [Operate O TInner] {subgraph after : Subgraph O S TOuter TInner}
    {child_index : ℕ} {flag : Bool} (hlocal : subgraph.AllLocal) (hindex : child_index ≠ 0)
    (h : subgraph.activate_child child_index = some (flag, after)) :
    after.final_pointstamp = subgraph.final_pointstamp := by
  obtain ⟨child, scheduled, reviewed, counted, hactivated⟩ := activated_of_activate_child h
  obtain ⟨_, _, rfl⟩ := set_incomplete_cases hactivated.count
  obtain ⟨extracted, _, rfl⟩ := Option.map_eq_some_iff.mp hactivated.extract
  have hfixed : reviewed.fixed = child.fixed :=
    (fixed_review_child hactivated.review).trans (fixed_schedule hactivated.schedule)
  have hreviewed : reviewed.is_local = true := by
    have hchild := hlocal child_index child hindex hactivated.child_eq
    change child.fixed.is_local = true at hchild
    rw [← hfixed] at hchild
    exact hchild
  exact if_pos hreviewed

/-! ### Propagating -/

/-- Propagating adds what has been committed to the counts. -/
theorem Stages.count {subgraph committed propagated delivered after : Subgraph O S TOuter TInner}
    (h : Stages subgraph committed propagated delivered after)
    (hquiet : subgraph.pointstamp_tracker.Quiet) (key : Location × TInner) :
    after.count key =
      subgraph.count key + committed.pointstamp_tracker.buffered key.1 key.2 := by
  unfold Subgraph.count
  rw [h.same.pointstamps_at, (h.counted hquiet).count,
    (committed_of_commit_pointstamps h.commit).same.pointstamps_at]

/-- Propagating commits all that has been received, and what is pushed reaches the children. -/
theorem AtRest.propagates {topology : Builder S} {subgraph after : Subgraph O S TOuter TInner}
    (h : AtRest topology subgraph) (hpropagates : subgraph.Propagates after) :
    AtRest topology after ∧ after.final_pointstamp = ChangeBatch.new ∧
      ∀ key : Location × TInner, key.1.node ≠ 0 → after.count key = subgraph.known key := by
  obtain ⟨committed, propagated, delivered, hstages⟩ := hpropagates.stages
  have hcommitted := committed_of_commit_pointstamps hstages.commit
  have hcounted := hstages.counted h.quiet
  refine ⟨⟨?_, hstages.same.quiet hcounted.quiet, fun location time _ => ?_, hstages.pushed⟩, ?_,
    fun key hnode => ?_⟩
  · rw [hstages.same.builder, hcounted.builder, hcommitted.same.builder]
    exact h.builder
  · rw [hstages.buffered, hcounted.buffered]
  · rw [(reported_of_report_outputs hstages.report).final,
      (delivered_of_deliver_changes hstages.deliver).final, hstages.propagated_eq]
    exact hcommitted.final
  · rw [hstages.count h.quiet, hcommitted.buffered, if_neg hnode]
    change _ + (subgraph.pointstamp_tracker.buffered key.1 key.2 +
      tally subgraph.final_pointstamp.compact.updates key) = _
    rw [h.buffered key.1 key.2 hnode, ChangeBatch.tally_compact, zero_add]
    rfl

/-! ### All steps -/

/-- A scheduled step propagates, or leaves the counts and the received changes alone. -/
theorem ScopeStep.unpropagated [Operate O TInner] {subgraph after : Subgraph O S TOuter TInner}
    {event : ScopeEvent TOuter TInner} (hlocal : subgraph.AllLocal) (hscheduled : event.Scheduled)
    (h : ScopeStep subgraph event after) :
    (event = .propagate_pointstamps ∧ subgraph.Propagates after) ∨ Unpropagated subgraph after := by
  cases h with
  | propagate_pointstamps hpropagates => exact Or.inl ⟨rfl, hpropagates⟩
  | outer_frontier _ => exact Or.inr (Unpropagated.of_tracker rfl rfl)
  | accept_frontier =>
    exact Or.inr ⟨(sameCounts_accept _ _).1, fun location time hnode => buffered_accept _ _ hnode time,
      (sameCounts_accept _ _).2.2, rfl⟩
  | enter _ => exact Or.inr (Unpropagated.of_tracker rfl rfl)
  | harvest_inputs hharvest =>
    obtain ⟨pointstamps, rfl⟩ := harvest_inputs_cases hharvest
    exact Or.inr (Unpropagated.of_tracker rfl rfl)
  | receive => exact absurd hscheduled id
  | express_child _ => exact absurd hscheduled id
  | set_child_external_summary hset =>
    obtain ⟨child, changed, _, _, rfl⟩ := modify_child_cases hset
    exact Or.inr (Unpropagated.of_tracker rfl rfl)
  | activate_child hactivate =>
    exact Or.inr (Unpropagated.of_tracker (untracked_of_activate_child hactivate).tracker
      (final_activate_child hlocal hscheduled hactivate))
  | send_progress _ => exact absurd hscheduled id
  | extract_progress => exact Or.inr (Unpropagated.of_tracker rfl rfl)

theorem ScopeStep.allLocal [Operate O TInner] {subgraph after : Subgraph O S TOuter TInner}
    {event : ScopeEvent TOuter TInner} (hlocal : subgraph.AllLocal)
    (h : ScopeStep subgraph event after) : after.AllLocal := by
  rcases h.framed with hframed | ⟨child_index, flag, _, hactivate⟩
  · exact allLocal_congr hframed.children hlocal
  · obtain ⟨counted, hcounted, hframed⟩ := framed_activate_child hactivate
    obtain ⟨_, _, rfl⟩ := set_incomplete_cases hcounted
    exact allLocal_congr hframed.children hlocal

/-- No scheduled step changes what a scope knows. -/
theorem AtRest.step [Operate O TInner] {topology : Builder S}
    {subgraph after : Subgraph O S TOuter TInner} {event : ScopeEvent TOuter TInner}
    (h : AtRest topology subgraph) (hlocal : subgraph.AllLocal) (hscheduled : event.Scheduled)
    (hstep : ScopeStep subgraph event after) :
    AtRest topology after ∧
      ∀ key : Location × TInner, key.1.node ≠ 0 → after.known key = subgraph.known key := by
  rcases hstep.unpropagated hlocal hscheduled with ⟨_, hpropagates⟩ | hkept
  · obtain ⟨hrest, hfinal, hcount⟩ := h.propagates hpropagates
    refine ⟨hrest, fun key hnode => ?_⟩
    unfold Subgraph.known at hcount ⊢
    rw [hcount key hnode, hfinal, ChangeBatch.value_new, add_zero]
  · exact ⟨h.unpropagated hkept, fun key _ => hkept.known key⟩

/-! ### Scopes without inputs and outputs -/

/-- A scope with nothing around it: the tracker's buffers are empty between calls, also for child zero. -/
structure Enclosed (subgraph : Subgraph O S TOuter TInner) : Prop where
  frontiers : subgraph.shared_progress.frontiers = []
  consumeds : subgraph.shared_progress.consumeds = []
  produceds : subgraph.shared_progress.produceds = []
  buffered : ∀ location time, subgraph.pointstamp_tracker.buffered location time = 0

/-- Committing concerns no statement about child zero: there is no batch to report it in. -/
theorem Enclosed.commit_pointstamp {subgraph after : Subgraph O S TOuter TInner}
    (hconsumeds : subgraph.shared_progress.consumeds = [])
    (hproduceds : subgraph.shared_progress.produceds = []) {change : (Location × TInner) × ℤ}
    (h : subgraph.commit_pointstamp change = some after) :
    change.1.1.node ≠ 0 ∧ after.shared_progress = subgraph.shared_progress := by
  obtain ⟨⟨location, time⟩, delta⟩ := change
  simp only [Subgraph.commit_pointstamp, hconsumeds, hproduceds] at h
  split at h
  case isTrue =>
    split at h
    · cases h
    · cases h
  case isFalse hnode =>
    cases h
    exact ⟨hnode, rfl⟩

theorem Enclosed.commit_pointstamps {subgraph after : Subgraph O S TOuter TInner}
    (henclosed : subgraph.Enclosed) (h : subgraph.commit_pointstamps = some after) :
    (∀ change ∈ subgraph.final_pointstamp.drain.1, change.1.1.node ≠ 0) ∧
      after.shared_progress = subgraph.shared_progress := by
  unfold Subgraph.commit_pointstamps at h
  refine And.symm (foldlM_invariant_and (P := fun middle : Subgraph O S TOuter TInner =>
    middle.shared_progress = subgraph.shared_progress)
    (Q := fun change : (Location × TInner) × ℤ => change.1.1.node ≠ 0) ?_ ?_ h)
  · exact rfl
  · intro before change middle hbefore hstep
    obtain ⟨hnode, hshared⟩ := Enclosed.commit_pointstamp (by rw [hbefore]; exact henclosed.consumeds)
      (by rw [hbefore]; exact henclosed.produceds) hstep
    exact ⟨hshared.trans hbefore, hnode⟩

/-- Reporting writes internal capabilities only. -/
theorem shared_report_outputs {subgraph after : Subgraph O S TOuter TInner}
    (h : subgraph.report_outputs = some after) :
    after.shared_progress.frontiers = subgraph.shared_progress.frontiers ∧
      after.shared_progress.consumeds = subgraph.shared_progress.consumeds ∧
      after.shared_progress.produceds = subgraph.shared_progress.produceds := by
  unfold report_outputs at h
  refine foldlM_invariant (P := fun middle : Subgraph O S TOuter TInner =>
    middle.shared_progress.frontiers = subgraph.shared_progress.frontiers ∧
      middle.shared_progress.consumeds = subgraph.shared_progress.consumeds ∧
      middle.shared_progress.produceds = subgraph.shared_progress.produceds) ⟨rfl, rfl, rfl⟩ ?_ h
  intro before output middle _ hbefore hstep
  unfold report_output at hstep
  split at hstep
  case h_1 =>
    cases hstep
    exact hbefore
  case h_2 => cases hstep

/-- Propagating in an enclosed scope moves all that has been received into the counts. -/
theorem Enclosed.propagates {topology : Builder S} {subgraph after : Subgraph O S TOuter TInner}
    (h : subgraph.Enclosed) (hrest : AtRest topology subgraph) (hpropagates : subgraph.Propagates after) :
    after.Enclosed ∧ ∀ key, after.count key = subgraph.known key := by
  obtain ⟨committed, propagated, delivered, hstages⟩ := hpropagates.stages
  have hcommitted := committed_of_commit_pointstamps hstages.commit
  obtain ⟨hnodes, hshared⟩ := h.commit_pointstamps hstages.commit
  have hdeliveredShared : delivered.shared_progress = subgraph.shared_progress := by
    rw [(delivered_of_deliver_changes hstages.deliver).shared, hstages.propagated_eq]
    exact hshared
  obtain ⟨hfrontiers, hconsumeds, hproduceds⟩ := shared_report_outputs hstages.report
  rw [hdeliveredShared] at hfrontiers hconsumeds hproduceds
  refine ⟨⟨hfrontiers.trans h.frontiers, hconsumeds.trans h.consumeds,
    hproduceds.trans h.produceds, fun location time => ?_⟩, fun key => ?_⟩
  · rw [hstages.buffered, (hstages.counted hrest.quiet).buffered]
  · by_cases hnode : key.1.node = 0
    · -- nothing was said about child zero
      have hnone : subgraph.final_pointstamp.value key = 0 := by
        rw [← ChangeBatch.value_compact]
        apply tally_eq_zero_of_not_mem
        rintro change hchange rfl
        exact hnodes change hchange hnode
      unfold Subgraph.known
      rw [hstages.count hrest.quiet, hcommitted.buffered, if_pos hnode, add_zero, hnone]
      exact congrArg _ (h.buffered key.1 key.2)
    · exact (hrest.propagates hpropagates).2.2 key hnode

/-- No scheduled step changes what an enclosed scope knows, also of child zero. -/
theorem Enclosed.step [Operate O TInner] {topology : Builder S}
    {subgraph after : Subgraph O S TOuter TInner} {event : ScopeEvent TOuter TInner}
    (h : subgraph.Enclosed) (hrest : AtRest topology subgraph) (hlocal : subgraph.AllLocal)
    (hscheduled : event.Scheduled) (hstep : ScopeStep subgraph event after) :
    after.Enclosed ∧ ∀ key, after.known key = subgraph.known key := by
  have hkept : ∀ {middle : Subgraph O S TOuter TInner},
      middle.shared_progress = subgraph.shared_progress →
      middle.pointstamp_tracker = subgraph.pointstamp_tracker →
      middle.final_pointstamp = subgraph.final_pointstamp →
      middle.Enclosed ∧ ∀ key, middle.known key = subgraph.known key := by
    intro middle hshared htracker hfinal
    refine ⟨⟨?_, ?_, ?_, fun location time => ?_⟩,
      (Unpropagated.of_tracker htracker hfinal).known⟩
    · rw [hshared]
      exact h.frontiers
    · rw [hshared]
      exact h.consumeds
    · rw [hshared]
      exact h.produceds
    · rw [htracker]
      exact h.buffered location time
  cases hstep with
  | propagate_pointstamps hpropagates =>
    obtain ⟨henclosed, hcount⟩ := h.propagates hrest hpropagates
    refine ⟨henclosed, fun key => ?_⟩
    unfold Subgraph.known at hcount ⊢
    rw [hcount, (hrest.propagates hpropagates).2.1, ChangeBatch.value_new, add_zero]
  | outer_frontier hupdate =>
    rw [h.frontiers] at hupdate
    cases hupdate
  | accept_frontier =>
    have hnothing : subgraph.accept_frontier = { subgraph with
        shared_progress := { subgraph.shared_progress with frontiers := [] } } := by
      unfold Subgraph.accept_frontier
      rw [h.frontiers]
      rfl
    have hsame : subgraph.accept_frontier.shared_progress = subgraph.shared_progress := by
      rw [hnothing, ← h.frontiers]
    refine hkept hsame ?_ rfl
    rw [hnothing]
  | enter _ => exact hkept rfl rfl rfl
  | harvest_inputs hharvest =>
    obtain ⟨pointstamps, rfl⟩ := harvest_inputs_cases hharvest
    exact hkept rfl rfl rfl
  | receive => exact absurd hscheduled id
  | express_child _ => exact absurd hscheduled id
  | set_child_external_summary hset =>
    obtain ⟨child, changed, _, _, rfl⟩ := modify_child_cases hset
    exact hkept rfl rfl rfl
  | activate_child hactivate =>
    have huntracked := untracked_of_activate_child hactivate
    exact hkept huntracked.shared huntracked.tracker
      (final_activate_child hlocal hscheduled hactivate)
  | send_progress _ => exact absurd hscheduled id
  | extract_progress =>
    refine ⟨⟨h.frontiers, ?_, ?_, h.buffered⟩, fun _ => rfl⟩
    · change drained subgraph.shared_progress.consumeds = []
      rw [h.consumeds]
      rfl
    · change drained subgraph.shared_progress.produceds = []
      rw [h.produceds]
      rfl

/-! ### Initialization -/

/-- Expressing children touches the received changes and the activations only. -/
theorem express_child_cases {subgraph after : Subgraph O S TOuter TInner} {child_index : ℕ}
    (h : subgraph.express_child child_index = some after) :
    Framed subgraph after ∧ after.pointstamp_tracker = subgraph.pointstamp_tracker ∧
      after.local_pointstamp = subgraph.local_pointstamp ∧
      after.shared_progress = subgraph.shared_progress := by
  refine ⟨framed_express_child h, ?_⟩
  unfold express_child at h
  split at h
  case h_1 => cases h
  case h_2 =>
    split at h
    · cases h
      exact ⟨rfl, rfl, rfl⟩
    · obtain ⟨extracted, _, rfl⟩ := Option.map_eq_some_iff.mp h
      exact ⟨rfl, rfl, rfl⟩

theorem atRest_of_built [PartialOrder S] [DecidableLE S] {topology : Builder S}
    {built : Subgraph O S TOuter TInner} (h : SubgraphBuilder.Built topology built) :
    AtRest topology built := by
  have hfresh := h.allocated.fresh
  refine ⟨hfresh.builder_eq, hfresh.tracking.quiet, fun location time _ => ?_, hfresh.pushed⟩
  unfold Tracker.buffered
  rw [hfresh.targets, hfresh.sources]
  split <;> rfl

theorem enclosed_of_built [PartialOrder S] [DecidableLE S] {topology : Builder S}
    {built : Subgraph O S TOuter TInner} (h : SubgraphBuilder.Built topology built)
    (hinputs : built.inputs = 0) (houtputs : built.outputs = 0) : built.Enclosed := by
  refine ⟨?_, ?_, ?_, fun location time => ?_⟩
  · rw [h.shared, hinputs]
    rfl
  · rw [h.shared, hinputs]
    rfl
  · rw [h.shared, houtputs]
    rfl
  · unfold Tracker.buffered
    rw [h.allocated.fresh.targets, h.allocated.fresh.sources]
    split <;> rfl

/-- Expressing all children leaves a scope that has been built at rest. -/
theorem atRest_of_express [PartialOrder S] [DecidableLE S] {topology : Builder S}
    {built expressed : Subgraph O S TOuter TInner} (hbuilt : SubgraphBuilder.Built topology built)
    (h : (List.range built.children.length).foldlM express_child built = some expressed) :
    AtRest topology expressed ∧ Framed built expressed ∧
      expressed.local_pointstamp = built.local_pointstamp ∧
      expressed.shared_progress = built.shared_progress ∧
      expressed.pointstamp_tracker = built.pointstamp_tracker := by
  have hkept : Framed built expressed ∧ expressed.pointstamp_tracker = built.pointstamp_tracker ∧
      expressed.local_pointstamp = built.local_pointstamp ∧
      expressed.shared_progress = built.shared_progress := by
    refine foldlM_invariant (P := fun middle => Framed built middle ∧
      middle.pointstamp_tracker = built.pointstamp_tracker ∧
      middle.local_pointstamp = built.local_pointstamp ∧
      middle.shared_progress = built.shared_progress) ⟨Framed.refl _, rfl, rfl, rfl⟩ ?_ h
    intro before index after _ hbefore hstep
    obtain ⟨hframed, htracker, hlocals, hshared⟩ := express_child_cases hstep
    exact ⟨hbefore.1.trans hframed, htracker.trans hbefore.2.1, hlocals.trans hbefore.2.2.1,
      hshared.trans hbefore.2.2.2⟩
  obtain ⟨hframed, htracker, hlocals, hshared⟩ := hkept
  obtain ⟨hbuilder, hquiet, hbuffered, hpushed⟩ := atRest_of_built hbuilt
  rw [← htracker] at hbuilder hquiet hbuffered hpushed
  exact ⟨⟨hbuilder, hquiet, hbuffered, hpushed⟩, hframed, hlocals, hshared, htracker⟩

/-- An initialized scope is at rest, and knows what it counts. -/
theorem atRest_of_get_internal_summary [PartialOrder S] [DecidableLE S] {topology : Builder S}
    {built start : Subgraph O S TOuter TInner} (hbuilt : SubgraphBuilder.Built topology built)
    {fuel : ℕ} (h : built.get_internal_summary fuel = some start) :
    AtRest topology start ∧ start.final_pointstamp = ChangeBatch.new ∧
      start.local_pointstamp = ChangeBatch.new ∧ (built.AllLocal → start.AllLocal) := by
  obtain ⟨expressed, hexpressed, hpropagate⟩ := Option.bind_eq_some_iff.mp h
  obtain ⟨hrest, hframed, hlocals, _⟩ := atRest_of_express hbuilt hexpressed
  obtain ⟨hstart, hfinal, _⟩ := hrest.propagates ⟨fuel, hpropagate⟩
  refine ⟨hstart, hfinal, ?_, fun hlocal => ?_⟩
  · obtain ⟨committed, propagated, delivered, hstages⟩ :=
      Propagates.stages (⟨fuel, hpropagate⟩ : expressed.Propagates start)
    rw [(reported_of_report_outputs hstages.report).locals,
      (delivered_of_deliver_changes hstages.deliver).locals, hstages.propagated_eq]
    change committed.local_pointstamp = _
    rw [(committed_of_commit_pointstamps hstages.commit).locals]
    exact hlocals.trans hbuilt.locals
  · exact allLocal_congr (framed_propagates ⟨fuel, hpropagate⟩).children
      (allLocal_congr hframed.children hlocal)

theorem enclosed_of_get_internal_summary [PartialOrder S] [DecidableLE S] {topology : Builder S}
    {built start : Subgraph O S TOuter TInner} (hbuilt : SubgraphBuilder.Built topology built)
    (hinputs : built.inputs = 0) (houtputs : built.outputs = 0) {fuel : ℕ}
    (h : built.get_internal_summary fuel = some start) : start.Enclosed := by
  obtain ⟨expressed, hexpressed, hpropagate⟩ := Option.bind_eq_some_iff.mp h
  obtain ⟨hrest, _, _, hshared, htracker⟩ := atRest_of_express hbuilt hexpressed
  obtain ⟨hfrontiers, hconsumeds, hproduceds, hbuffered⟩ := enclosed_of_built hbuilt hinputs houtputs
  rw [← hshared] at hfrontiers hconsumeds hproduceds
  rw [← htracker] at hbuffered
  have henclosed : expressed.Enclosed := ⟨hfrontiers, hconsumeds, hproduceds, hbuffered⟩
  exact (henclosed.propagates hrest ⟨fuel, hpropagate⟩).1

end Subgraph

end Timely
