/-
  Timely/Internals.lean
  =====================
  **A scope reports its internal capabilities exactly.**

  Changes of the pointstamps inside a scope reach its parent through three
  filters: the pointstamp frontier of each location, the projection along the
  output summaries, and the frontier of what the scope has expressed at each
  output.  The counts of the last filter are at all times the projection of the
  first, so that what has been written out is the frontier of that projection.
-/
import Timely.SubgraphSteps
import Timely.SubgraphBuilder

set_option linter.unusedSectionVars false

namespace Timely

open Library

/-! ### Events in the life of a scope -/

/-- A step of a scope or of its surroundings. -/
inductive ScopeEvent (TOuter TInner : Type) where
  | outer_frontier (input : ℕ) (time : TOuter) (delta : ℤ)
  | accept_frontier
  | enter (input : ℕ) (time : TInner) (delta : ℤ)
  | harvest_inputs
  | receive (changes : List ((Location × TInner) × ℤ))
  | propagate_pointstamps
  | express_child (child_index : ℕ)
  | set_child_external_summary (child_index : ℕ)
  | activate_child (child_index : ℕ)
  | send_progress
  | extract_progress (internals : List (List (TOuter × ℤ)))

/-- The changes that the parent extracts for one output. -/
def ScopeEvent.extracted {TOuter TInner : Type} (output : ℕ) :
    ScopeEvent TOuter TInner → List (TOuter × ℤ)
  | .extract_progress internals => (internals[output]?).getD []
  | _ => []

namespace Subgraph

variable {O S TOuter TInner : Type}
  [PartialOrder TOuter] [DecidableLE TOuter] [DecidableEq TOuter] [Ord TOuter]
  [LinearExtension TOuter]
  [PartialOrder TInner] [DecidableLE TInner] [DecidableEq TInner] [Ord TInner]
  [LinearExtension TInner] [Refines TOuter TInner]

/-- The parent extracts what the scope has written for it. -/
def extracted (subgraph : Subgraph O S TOuter TInner) : Subgraph O S TOuter TInner :=
  { subgraph with
    shared_progress :=
      { subgraph.shared_progress with
        consumeds := drained subgraph.shared_progress.consumeds
        internals := drained subgraph.shared_progress.internals
        produceds := drained subgraph.shared_progress.produceds } }

section Steps

variable [PathSummary S TInner] [Operate O TInner]

/-- The steps of a scope, in any order. -/
inductive ScopeStep : Subgraph O S TOuter TInner → ScopeEvent TOuter TInner →
    Subgraph O S TOuter TInner → Prop
  | outer_frontier {subgraph : Subgraph O S TOuter TInner} {input : ℕ} {time : TOuter} {delta : ℤ}
      {frontiers : List (ChangeBatch TOuter)} :
      update_at subgraph.shared_progress.frontiers input time delta = some frontiers →
      ScopeStep subgraph (.outer_frontier input time delta)
        { subgraph with
          shared_progress := { subgraph.shared_progress with frontiers := frontiers } }
  | accept_frontier {subgraph : Subgraph O S TOuter TInner} :
      ScopeStep subgraph .accept_frontier subgraph.accept_frontier
  | enter {subgraph : Subgraph O S TOuter TInner} {input : ℕ} {time : TInner} {delta : ℤ}
      {input_messages : List (ChangeBatch TInner)} :
      update_at subgraph.input_messages input time delta = some input_messages →
      ScopeStep subgraph (.enter input time delta) { subgraph with input_messages := input_messages }
  | harvest_inputs {subgraph after : Subgraph O S TOuter TInner} :
      subgraph.harvest_inputs = some after → ScopeStep subgraph .harvest_inputs after
  | receive {subgraph : Subgraph O S TOuter TInner} {changes : List ((Location × TInner) × ℤ)} :
      ScopeStep subgraph (.receive changes) (subgraph.receive changes)
  | propagate_pointstamps {subgraph after : Subgraph O S TOuter TInner} :
      subgraph.Propagates after → ScopeStep subgraph .propagate_pointstamps after
  | express_child {subgraph after : Subgraph O S TOuter TInner} {child_index : ℕ} :
      subgraph.express_child child_index = some after →
      ScopeStep subgraph (.express_child child_index) after
  | set_child_external_summary {subgraph after : Subgraph O S TOuter TInner} {child_index : ℕ} :
      subgraph.set_child_external_summary child_index = some after →
      ScopeStep subgraph (.set_child_external_summary child_index) after
  | activate_child {subgraph after : Subgraph O S TOuter TInner} {child_index : ℕ} {flag : Bool} :
      subgraph.activate_child child_index = some (flag, after) →
      ScopeStep subgraph (.activate_child child_index) after
  | send_progress {subgraph after : Subgraph O S TOuter TInner}
      {sent : List ((Location × TInner) × ℤ)} :
      subgraph.send_progress = some (sent, after) → ScopeStep subgraph .send_progress after
  | extract_progress {subgraph : Subgraph O S TOuter TInner} :
      ScopeStep subgraph
        (.extract_progress (subgraph.shared_progress.internals.map fun internal => internal.drain.1))
        subgraph.extracted

end Steps

/-! ### Steps that report nothing -/

/-- Harvesting drains the input counts into the local updates. -/
theorem harvest_inputs_cases {subgraph after : Subgraph O S TOuter TInner}
    (h : subgraph.harvest_inputs = some after) :
    ∃ pointstamps, after = { subgraph with
      local_pointstamp := pointstamps, input_messages := drained subgraph.input_messages } := by
  unfold harvest_inputs at h
  split at h
  case h_1 => cases h
  case h_2 =>
    split at h
    · obtain ⟨pointstamps, _, rfl⟩ := Option.map_eq_some_iff.mp h
      exact ⟨pointstamps, rfl⟩
    · cases h

/-- Sending changes the local updates only. -/
theorem send_progress_cases [PathSummary S TInner] {subgraph after : Subgraph O S TOuter TInner}
    {sent : List ((Location × TInner) × ℤ)} (h : subgraph.send_progress = some (sent, after)) :
    ∃ pointstamps, after = { subgraph with local_pointstamp := pointstamps } := by
  obtain ⟨must_send, _, heq⟩ := Option.map_eq_some_iff.mp h
  split at heq
  · exact ⟨_, (Prod.mk.inj heq).2.symm⟩
  · exact ⟨_, (Prod.mk.inj heq).2.symm⟩

/-- Two states with the same counts, the same expressed capabilities and the same report. -/
structure Kept (subgraph after : Subgraph O S TOuter TInner) : Prop where
  same : SameCounts subgraph.pointstamp_tracker after.pointstamp_tracker
  outputs : after.pointstamp_tracker.output_changes = subgraph.pointstamp_tracker.output_changes
  capabilities : after.output_capabilities = subgraph.output_capabilities
  internals : after.shared_progress.internals = subgraph.shared_progress.internals
  pushed : after.pointstamp_tracker.pushed_changes = subgraph.pointstamp_tracker.pushed_changes

/-- Changes taken from the parent only fill the buffer of the tracker. -/
theorem sameCounts_accept (changes : List (ℕ × (TOuter × ℤ))) (tracker : Tracker S TInner) :
    SameCounts tracker (changes.foldl (fun tracker change =>
      tracker.update_source ⟨0, change.1⟩ (Refines.to_inner change.2.1) change.2.2) tracker) ∧
    (changes.foldl (fun tracker change => tracker.update_source ⟨0, change.1⟩
      (Refines.to_inner change.2.1) change.2.2) tracker).output_changes = tracker.output_changes ∧
    (changes.foldl (fun tracker change => tracker.update_source ⟨0, change.1⟩
      (Refines.to_inner change.2.1) change.2.2) tracker).pushed_changes = tracker.pushed_changes := by
  induction changes generalizing tracker with
  | nil => exact ⟨SameCounts.refl tracker, rfl, rfl⟩
  | cons change changes ih =>
    obtain ⟨hsame, houtputs, hpushed⟩ :=
      ih (tracker.update_source ⟨0, change.1⟩ (Refines.to_inner change.2.1) change.2.2)
    have hupdate : SameCounts tracker
        (tracker.update_source ⟨0, change.1⟩ (Refines.to_inner change.2.1) change.2.2) :=
      ⟨rfl, rfl, rfl⟩
    exact ⟨hupdate.trans hsame, houtputs, hpushed⟩

theorem kept_accept_frontier (subgraph : Subgraph O S TOuter TInner) :
    Kept subgraph subgraph.accept_frontier :=
  ⟨(sameCounts_accept _ _).1, (sameCounts_accept _ _).2.1, rfl, rfl, (sameCounts_accept _ _).2.2⟩

theorem Untracked.kept {subgraph after : Subgraph O S TOuter TInner} (h : Untracked subgraph after) :
    Kept subgraph after := by
  refine ⟨?_, ?_, h.capabilities, ?_, ?_⟩
  · rw [h.tracker]
    exact SameCounts.refl _
  · rw [h.tracker]
  · rw [h.shared]
  · rw [h.tracker]

theorem kept_express_child {subgraph after : Subgraph O S TOuter TInner} {child_index : ℕ}
    (h : subgraph.express_child child_index = some after) : Kept subgraph after := by
  unfold express_child at h
  split at h
  case h_1 => cases h
  case h_2 =>
    split at h
    · cases h
      exact ⟨SameCounts.refl _, rfl, rfl, rfl, rfl⟩
    · obtain ⟨extracted, _, rfl⟩ := Option.map_eq_some_iff.mp h
      exact ⟨SameCounts.refl _, rfl, rfl, rfl, rfl⟩

/-- A step that neither propagates nor extracts reports nothing. -/
theorem ScopeStep.kept [PathSummary S TInner] [Operate O TInner]
    {subgraph after : Subgraph O S TOuter TInner} {event : ScopeEvent TOuter TInner}
    (h : ScopeStep subgraph event after) :
    ((∀ output, event.extracted output = []) ∧ subgraph.Propagates after) ∨
      (event = .extract_progress (subgraph.shared_progress.internals.map fun internal =>
        internal.drain.1) ∧ after = subgraph.extracted) ∨
      ((∀ output, event.extracted output = []) ∧ Kept subgraph after) := by
  cases h with
  | propagate_pointstamps hpropagates => exact Or.inl ⟨fun _ => rfl, hpropagates⟩
  | extract_progress => exact Or.inr (Or.inl ⟨rfl, rfl⟩)
  | outer_frontier _ => exact Or.inr (Or.inr ⟨fun _ => rfl, SameCounts.refl _, rfl, rfl, rfl, rfl⟩)
  | accept_frontier => exact Or.inr (Or.inr ⟨fun _ => rfl, kept_accept_frontier subgraph⟩)
  | enter _ => exact Or.inr (Or.inr ⟨fun _ => rfl, SameCounts.refl _, rfl, rfl, rfl, rfl⟩)
  | harvest_inputs hharvest =>
    obtain ⟨pointstamps, rfl⟩ := harvest_inputs_cases hharvest
    exact Or.inr (Or.inr ⟨fun _ => rfl, SameCounts.refl _, rfl, rfl, rfl, rfl⟩)
  | receive => exact Or.inr (Or.inr ⟨fun _ => rfl, SameCounts.refl _, rfl, rfl, rfl, rfl⟩)
  | express_child hexpress => exact Or.inr (Or.inr ⟨fun _ => rfl, kept_express_child hexpress⟩)
  | set_child_external_summary hset =>
    obtain ⟨child, changed, _, _, rfl⟩ := modify_child_cases hset
    exact Or.inr (Or.inr ⟨fun _ => rfl, SameCounts.refl _, rfl, rfl, rfl, rfl⟩)
  | activate_child hactivate =>
    exact Or.inr (Or.inr ⟨fun _ => rfl, (untracked_of_activate_child hactivate).kept⟩)
  | send_progress hsend =>
    obtain ⟨pointstamps, rfl⟩ := send_progress_cases hsend
    exact Or.inr (Or.inr ⟨fun _ => rfl, SameCounts.refl _, rfl, rfl, rfl, rfl⟩)

/-! ### The invariant -/

/-- The capabilities expressed at an output. -/
def capabilities_of (subgraph : Subgraph O S TOuter TInner) (output : ℕ) : MutableAntichain TOuter :=
  (subgraph.output_capabilities[output]?).getD MutableAntichain.new

/-- The changes written for an output and not yet extracted. -/
def internal_of (subgraph : Subgraph O S TOuter TInner) (output : ℕ) : ChangeBatch TOuter :=
  (subgraph.shared_progress.internals[output]?).getD ChangeBatch.new

/-- The weight that counts the inner times standing for one outer time. -/
def stands_for (time : TOuter) (inner : TInner) : ℤ :=
  if Refines.to_outer inner = time then 1 else 0

variable [PathSummary S TInner]

/-- The counts expressed at each output are the projection of the pointstamps, and what has been
    reported is their frontier. -/
structure Reporting (outputs : ℕ) (reported : ℕ → List (TOuter × ℤ))
    (subgraph : Subgraph O S TOuter TInner) : Prop where
  quiet : subgraph.pointstamp_tracker.Quiet
  summaries : ∀ location, location.node = 0 → subgraph.pointstamp_tracker.summaries_at location = []
  length : subgraph.shared_progress.internals.length = outputs
  drained : ∀ output < outputs, ∀ weight,
    Tracker.output_weight subgraph.pointstamp_tracker.output_changes output weight = 0
  settled : ∀ output < outputs, (subgraph.capabilities_of output).Settled
  count : ∀ output < outputs, ∀ time, (subgraph.capabilities_of output).count_for time =
    subgraph.pointstamp_tracker.projected output (stands_for time)
  report : ∀ output < outputs, ∀ time,
    tally (reported output) time + (subgraph.internal_of output).value time =
      if time ∈ (subgraph.capabilities_of output).frontier then 1 else 0

theorem Reporting.kept {outputs : ℕ} {reported reported' : ℕ → List (TOuter × ℤ)}
    {subgraph after : Subgraph O S TOuter TInner} (h : Reporting outputs reported subgraph)
    (hkept : Kept subgraph after) (hreported : ∀ output, reported' output = reported output) :
    Reporting outputs reported' after where
  quiet := hkept.same.quiet h.quiet
  summaries location hnode := by
    rw [hkept.same.summaries_at]
    exact h.summaries location hnode
  length := by
    rw [hkept.internals]
    exact h.length
  drained output houtput weight := by
    rw [hkept.outputs]
    exact h.drained output houtput weight
  settled output houtput := by
    unfold capabilities_of
    rw [hkept.capabilities]
    exact h.settled output houtput
  count output houtput time := by
    unfold capabilities_of
    rw [hkept.capabilities, hkept.same.projected]
    exact h.count output houtput time
  report output houtput time := by
    unfold internal_of capabilities_of
    rw [hkept.internals, hkept.capabilities, hreported]
    exact h.report output houtput time

/-- Extracting moves what was written into the history. -/
theorem Reporting.extracted {outputs : ℕ} {reported : ℕ → List (TOuter × ℤ)}
    {subgraph : Subgraph O S TOuter TInner} (h : Reporting outputs reported subgraph) :
    Reporting outputs (fun output => reported output ++
      ((subgraph.shared_progress.internals.map fun internal => internal.drain.1)[output]?).getD [])
      subgraph.extracted where
  quiet := h.quiet
  summaries := h.summaries
  length := by
    change (Timely.drained subgraph.shared_progress.internals).length = outputs
    rw [Timely.drained, List.length_map]
    exact h.length
  drained := h.drained
  settled := h.settled
  count := h.count
  report output houtput time := by
    have hreport := h.report output houtput time
    have hindex : output < subgraph.shared_progress.internals.length := h.length ▸ houtput
    unfold internal_of at hreport ⊢
    rw [List.getElem?_eq_getElem hindex, Option.getD_some] at hreport
    change _ + (((Timely.drained subgraph.shared_progress.internals)[output]?).getD _).value time = _
    rw [Timely.drained, List.getElem?_map, List.getElem?_map, List.getElem?_eq_getElem hindex,
      Option.map_some, Option.map_some, Option.getD_some, Option.getD_some, tally_append]
    change _ + tally (subgraph.shared_progress.internals[output]).compact.updates time + 0 = _
    rw [ChangeBatch.tally_compact, add_zero]
    exact hreport

/-- What committing, propagating and delivering leave for the report. -/
theorem Stages.before_report {subgraph committed propagated delivered after :
    Subgraph O S TOuter TInner} (hquiet : subgraph.pointstamp_tracker.Quiet)
    (h : Stages subgraph committed propagated delivered after) :
    delivered.pointstamp_tracker.Quiet ∧
    (∀ location, delivered.pointstamp_tracker.summaries_at location =
      subgraph.pointstamp_tracker.summaries_at location) ∧
    delivered.output_capabilities = subgraph.output_capabilities ∧
    delivered.shared_progress.internals = subgraph.shared_progress.internals ∧
    ∀ output weight,
      Tracker.output_weight delivered.pointstamp_tracker.output_changes output weight -
          delivered.pointstamp_tracker.projected output weight =
        Tracker.output_weight subgraph.pointstamp_tracker.output_changes output weight -
          subgraph.pointstamp_tracker.projected output weight := by
  have hcommitted := committed_of_commit_pointstamps h.commit
  have hdelivered := delivered_of_deliver_changes h.deliver
  have hquietCommitted := hcommitted.same.quiet hquiet
  have hpropagated := h.propagate.propagated hquietCommitted.toBalanced
  have hbuffers : SameCounts propagated.pointstamp_tracker delivered.pointstamp_tracker := by
    rw [hdelivered.tracker]
    exact ⟨rfl, rfl, rfl⟩
  refine ⟨hbuffers.quiet hpropagated.quiet, fun location => ?_, ?_, ?_, fun output weight => ?_⟩
  · rw [hbuffers.summaries_at, hpropagated.summaries, hcommitted.same.summaries_at]
  · rw [hdelivered.capabilities, h.propagated_eq]
    exact hcommitted.capabilities
  · rw [hdelivered.shared, h.propagated_eq]
    exact hcommitted.internals
  · have hweight := h.propagate.output_weight hquietCommitted.toBalanced output weight
    rw [hcommitted.outputs, hcommitted.same.projected] at hweight
    rw [hbuffers.projected, hdelivered.tracker]
    exact hweight

theorem tally_to_outer (changes : List (TInner × ℤ)) (time : TOuter) :
    tally (changes.map fun change => ((Refines.to_outer change.1 : TOuter), change.2)) time =
      weigh changes (stands_for time) :=
  tally_map _ changes time

/-- One output: its capabilities take the drained changes, and its report the difference. -/
theorem Reporting.propagates_output {outputs : ℕ} {reported : ℕ → List (TOuter × ℤ)}
    {subgraph committed propagated delivered after : Subgraph O S TOuter TInner}
    (h : Reporting outputs reported subgraph)
    (hstages : Stages subgraph committed propagated delivered after) {output : ℕ}
    (houtput : output < outputs) :
    (∀ weight, Tracker.output_weight after.pointstamp_tracker.output_changes output weight = 0) ∧
    (after.capabilities_of output).Settled ∧
    (∀ time, (after.capabilities_of output).count_for time =
      after.pointstamp_tracker.projected output (stands_for time)) ∧
    ∀ time, tally (reported output) time + (after.internal_of output).value time =
      if time ∈ (after.capabilities_of output).frontier then 1 else 0 := by
  obtain ⟨_, _, hcapabilities, hinternals, hweights⟩ := hstages.before_report h.quiet
  have hreported := reported_of_report_outputs hstages.report
  have hindex : output < delivered.shared_progress.internals.length := by
    rw [hinternals, h.length]
    exact houtput
  obtain ⟨changes, capabilities, hchanges, hbefore, hdrained, hafter, hinternal⟩ :=
    hreported.reported output hindex
  have hsame : subgraph.capabilities_of output = capabilities := by
    unfold capabilities_of
    rw [← hcapabilities, hbefore]
    rfl
  have hupdated := (h.settled output houtput).update_iter
    (changes.drain.1.map fun change => (Refines.to_outer change.1, change.2))
  rw [hsame] at hupdated
  have hcapabilitiesAfter : after.capabilities_of output = (capabilities.update_iter
      (changes.drain.1.map fun change => (Refines.to_outer change.1, change.2))).2 := by
    unfold capabilities_of
    rw [hafter]
    rfl
  refine ⟨fun weight => ?_, ?_, fun time => ?_, fun time => ?_⟩
  · unfold Tracker.output_weight
    rw [hdrained]
    rfl
  · rw [hcapabilitiesAfter]
    exact hupdated.settled
  · have hweight := hweights output (stands_for time)
    have hdelivered : Tracker.output_weight delivered.pointstamp_tracker.output_changes output
        (stands_for time) = weigh changes.drain.1 (stands_for time) := by
      unfold Tracker.output_weight
      rw [hchanges, Option.map_some, Option.getD_some]
      exact weigh_congr (fun key => (ChangeBatch.tally_compact changes key).symm) _
    rw [h.drained output houtput, hdelivered] at hweight
    rw [hcapabilitiesAfter, hupdated.count, tally_to_outer, ← hsame, h.count output houtput,
      hreported.same.projected]
    omega
  · have hreport := h.report output houtput time
    have hvalue : (after.internal_of output).value time = (subgraph.internal_of output).value time +
        tally (capabilities.update_iter
          (changes.drain.1.map fun change => (Refines.to_outer change.1, change.2))).1 time := by
      unfold internal_of
      rw [hinternal, ← hinternals, List.getElem?_eq_getElem hindex, Option.map_some,
        Option.getD_some, Option.getD_some]
      exact ChangeBatch.value_foldl_update _ _ _
    rw [hvalue, hupdated.report, hcapabilitiesAfter, ← hsame]
    rw [← hsame] at hupdated
    omega

/-- Propagating writes out what changes in the frontier of the projection. -/
theorem Reporting.propagates {outputs : ℕ} {reported : ℕ → List (TOuter × ℤ)}
    {subgraph after : Subgraph O S TOuter TInner} (h : Reporting outputs reported subgraph)
    (hpropagates : subgraph.Propagates after) : Reporting outputs reported after := by
  obtain ⟨committed, propagated, delivered, hstages⟩ := hpropagates.stages
  obtain ⟨hquiet, hsummaries, _, hinternals, _⟩ := hstages.before_report h.quiet
  have hreported := reported_of_report_outputs hstages.report
  refine ⟨hreported.same.quiet hquiet, fun location hnode => ?_, ?_,
    fun output houtput => (h.propagates_output hstages houtput).1,
    fun output houtput => (h.propagates_output hstages houtput).2.1,
    fun output houtput => (h.propagates_output hstages houtput).2.2.1,
    fun output houtput => (h.propagates_output hstages houtput).2.2.2⟩
  · rw [hreported.same.summaries_at, hsummaries]
    exact h.summaries location hnode
  · rw [hreported.length, hinternals]
    exact h.length

/-! ### Runs -/

/-- Everything that the parent has extracted for an output. -/
def all_extracted (events : List (ScopeEvent TOuter TInner)) (output : ℕ) : List (TOuter × ℤ) :=
  events.flatMap (ScopeEvent.extracted output)

section Runs

variable [Operate O TInner] [PartialOrder S] [DecidableLE S]

theorem reporting_of_built {topology : Builder S} {built : Subgraph O S TOuter TInner}
    (h : SubgraphBuilder.Built topology built) :
    Reporting built.outputs (fun _ => []) built := by
  have hfresh := h.allocated.fresh
  have hcapabilities : ∀ output, built.capabilities_of output = MutableAntichain.new := by
    intro output
    unfold capabilities_of
    cases hlookup : built.output_capabilities[output]? with
    | none => rfl
    | some capabilities => exact h.capabilities _ (List.mem_of_getElem? hlookup)
  have hinternal : ∀ output, built.internal_of output = ChangeBatch.new := by
    intro output
    unfold internal_of
    rw [h.shared]
    cases hlookup : (SharedProgress.new built.inputs built.outputs :
        SharedProgress TOuter).internals[output]? with
    | none => rfl
    | some internal => exact (List.mem_replicate.mp (List.mem_of_getElem? hlookup)).2
  have hquiet : built.pointstamp_tracker.Quiet := hfresh.tracking.quiet
  refine ⟨hquiet, hfresh.summaries, ?_, fun output _ weight => ?_, fun output _ => ?_,
    fun output _ time => ?_, fun output _ time => ?_⟩
  · rw [h.shared]
    exact List.length_replicate
  · obtain ⟨scope_outputs, _, _, houtputs⟩ := hfresh.outputs
    unfold Tracker.output_weight
    rw [houtputs]
    cases hlookup : (List.replicate scope_outputs (ChangeBatch.new : ChangeBatch TInner))[output]? with
    | none => rfl
    | some changes =>
      rw [(List.mem_replicate.mp (List.mem_of_getElem? hlookup)).2]
      rfl
  · rw [hcapabilities]
    exact MutableAntichain.settled_new
  · rw [hcapabilities]
    refine Eq.symm (contributions_of_empty fun location => ?_)
    rw [hfresh.pointstamps]
    rfl
  · rw [hcapabilities, hinternal]
    rfl

theorem all_extracted_snoc (events : List (ScopeEvent TOuter TInner)) (event : ScopeEvent TOuter TInner)
    (output : ℕ) : all_extracted (events ++ [event]) output =
      all_extracted events output ++ event.extracted output := by
  simp [all_extracted]

theorem Reporting.of_run {topology : Builder S} {built last : Subgraph O S TOuter TInner}
    (hbuilt : SubgraphBuilder.Built topology built) {events : List (ScopeEvent TOuter TInner)}
    (hrun : Run ScopeStep built events last) : Reporting built.outputs (all_extracted events) last := by
  refine hrun.invariant (P := fun events last =>
    Reporting built.outputs (all_extracted events) last) (reporting_of_built hbuilt) ?_
  intro events before event after h hstep
  have hsnoc : ∀ output, all_extracted (events ++ [event]) output =
      all_extracted events output ++ event.extracted output := all_extracted_snoc events event
  rcases hstep.kept with ⟨hnothing, hpropagates⟩ | ⟨rfl, rfl⟩ | ⟨hnothing, hkept⟩
  · have hsame : all_extracted (events ++ [event]) = all_extracted events := by
      funext output
      rw [hsnoc, hnothing, List.append_nil]
    rw [hsame]
    exact h.propagates hpropagates
  · have hsame := funext hsnoc
    rw [hsame]
    exact h.extracted
  · exact h.kept hkept fun output => by rw [hsnoc, hnothing, List.append_nil]

/-! ### The report -/

/-- Some pointstamp inside the scope may still lead to the outer time at an output. -/
def MayExpress (subgraph : Subgraph O S TOuter TInner) (output : ℕ) (time : TOuter) : Prop :=
  ∃ location start antichain summary result, location.node ≠ 0 ∧
    0 < (subgraph.pointstamp_tracker.pointstamps_at location).count_for start ∧
    (subgraph.pointstamp_tracker.summaries_at location)[output]? = some antichain ∧
    summary ∈ antichain.elements ∧ PathSummary.results_in summary start = some result ∧
    Refines.to_outer result = time

theorem mem_output_times {output_summaries : List (Antichain S)} {output : ℕ} {start result : TInner} :
    result ∈ Tracker.output_times output_summaries output start ↔
      ∃ antichain summary, output_summaries[output]? = some antichain ∧
        summary ∈ antichain.elements ∧ PathSummary.results_in summary start = some result := by
  unfold Tracker.output_times
  cases output_summaries[output]? with
  | none => simp
  | some antichain => simp

/-- The expressed capabilities are the frontier of the outer times that the pointstamps of the
    scope may still lead to. -/
theorem Reporting.isFrontier [MonotoneSummary S TInner] {outputs : ℕ}
    {reported : ℕ → List (TOuter × ℤ)} {subgraph : Subgraph O S TOuter TInner}
    (hmono : Monotone (Refines.to_outer : TInner → TOuter)) (h : Reporting outputs reported subgraph)
    {output : ℕ} (houtput : output < outputs) :
    IsFrontier (subgraph.capabilities_of output).frontier (subgraph.MayExpress output) := by
  have hstands : ∀ (time : TOuter) (inner : TInner), 0 ≤ stands_for time inner := by
    intro time inner
    unfold stands_for
    split <;> decide
  have hpositive : ∀ time, 0 < (subgraph.capabilities_of output).count_for time ↔
      ∃ location start result, start ∈ (subgraph.pointstamp_tracker.pointstamps_at location).frontier ∧
        result ∈ Tracker.output_times (subgraph.pointstamp_tracker.summaries_at location) output start ∧
        Refines.to_outer result = time := by
    intro time
    rw [h.count output houtput, Tracker.projected_pos_iff (hstands time)]
    simp only [stands_for]
    constructor
    · rintro ⟨location, start, result, hstart, hresult, hweight⟩
      refine ⟨location, start, result, hstart, hresult, ?_⟩
      by_contra hne
      rw [if_neg hne] at hweight
      exact lt_irrefl _ hweight
    · rintro ⟨location, start, result, hstart, hresult, houter⟩
      exact ⟨location, start, result, hstart, hresult, by rw [if_pos houter]; exact one_pos⟩
  refine (h.settled output houtput).frontier.widen (fun time htime => ?_) ?_
  · -- what is expressed comes from a frontier pointstamp
    obtain ⟨location, start, result, hstart, hresult, houter⟩ := (hpositive time).mp htime
    obtain ⟨antichain, summary, hlookup, hsummary, hresults⟩ := mem_output_times.mp hresult
    refine ⟨location, start, antichain, summary, result, fun hnode => ?_,
      (h.quiet.pointstamps location).frontier.present_of_mem _ hstart, hlookup, hsummary, hresults, houter⟩
    rw [h.summaries location hnode] at hlookup
    cases hlookup
  · -- any other pointstamp lies above a frontier one, and leads to a later outer time
    rintro time ⟨location, start, antichain, summary, result, _, hcount, hlookup, hsummary, hresults, rfl⟩
    obtain ⟨least, hleast, hle⟩ := (h.quiet.pointstamps location).frontier.covers start hcount
    obtain ⟨lower, hlower, hlowerLe⟩ := MonotoneSummary.results_in_mono summary hle hresults
    exact ⟨Refines.to_outer lower, (hpositive _).mpr ⟨location, least, lower, hleast,
      mem_output_times.mpr ⟨antichain, summary, hlookup, hsummary, hlower⟩, rfl⟩, hmono hlowerLe⟩

open Classical in
/-- After every `propagate_pointstamps` the changes written for each output, extracted or not,
    add up to one at each minimal outer time that the scope may still lead to, and to zero at
    every other. -/
theorem internals_exact [MonotoneSummary S TInner]
    (hmono : Monotone (Refines.to_outer : TInner → TOuter))
    {builder : SubgraphBuilder O S TOuter TInner} {iteration : IterationOrder ℕ} {eager : Bool}
    {fuel : ℕ} {built before after : Subgraph O S TOuter TInner}
    (hbuild : builder.build iteration eager fuel = some built)
    {events : List (ScopeEvent TOuter TInner)} (hrun : Run ScopeStep built events before)
    (hpropagates : before.Propagates after) {output : ℕ} (houtput : output < built.outputs)
    (time : TOuter) :
    tally (all_extracted events output) time + (after.internal_of output).value time =
      if Minimal (after.MayExpress output) time then 1 else 0 := by
  obtain ⟨topology, hbuilt⟩ := SubgraphBuilder.built_of_build hbuild
  have hreporting := (Reporting.of_run hbuilt hrun).propagates hpropagates
  rw [hreporting.report output houtput]
  exact if_congr ((hreporting.isFrontier hmono houtput).mem_iff time) rfl rfl

end Runs

/-! ### An example -/

/-- An operator that does nothing. -/
inductive Idle (T : Type) where
  | idle

instance {T : Type} [Ord T] : Operate (Idle T) T where
  schedule operator shared_progress := some (false, operator, shared_progress)
  set_external_summary operator shared_progress := some (operator, shared_progress)

/-- An idle child. -/
def idle_child {S T : Type} [Ord T] (index inputs outputs : ℕ)
    (internal_summary : List (List (Antichain S))) : PerOperatorState (Idle T) S T where
  index := index
  is_local := true
  notify := true
  inputs := inputs
  outputs := outputs
  count_for_incomplete := true
  operator := some .idle
  edges := List.replicate outputs []
  ghost_edges := List.replicate outputs []
  shared_progress := SharedProgress.new inputs outputs
  internal_summary := internal_summary

/-- A scope with one output, fed by the first of six idle children. -/
def example_scope_builder {S TOuter TInner : Type} [PartialOrder TOuter] [DecidableLE TOuter]
    [DecidableEq TOuter] [Ord TOuter] [LinearExtension TOuter] [Ord TInner] (summary : S) :
    SubgraphBuilder (Idle TInner) S TOuter TInner :=
  ((((((((SubgraphBuilder.new_from 1).new_output.2.add_child
    (idle_child 1 1 1 [[Antichain.from_elem summary]])).add_child (idle_child 2 0 0 [])).add_child
    (idle_child 3 0 0 [])).add_child (idle_child 4 0 0 [])).add_child (idle_child 5 0 0 [])).add_child
    (idle_child 6 0 0 [])).connect ⟨1, 0⟩ ⟨0, 0⟩)

theorem example_scope_builds : ((example_scope_builder (0 : Unsigned 64) :
    SubgraphBuilder (Idle (Unsigned 64)) (Unsigned 64) (Unsigned 64) (Unsigned 64)).build
      IterationOrder.listed true 20).isSome := by decide

def example_scope : Subgraph (Idle (Unsigned 64)) (Unsigned 64) (Unsigned 64) (Unsigned 64) :=
  ((example_scope_builder 0).build IterationOrder.listed true 20).get example_scope_builds

/-- A message for the first child. -/
def example_message : List ((Location × Unsigned 64) × ℤ) := [((Location.new_target 1 0, 5), 1)]

theorem example_scope_propagates :
    ((example_scope.receive example_message).propagate_pointstamps 20).isSome := by decide

/-- The scope has reported the time of the message, the least one it may express. -/
theorem internals_exact_example :
    Minimal (MayExpress ((((example_scope.receive example_message).propagate_pointstamps 20).get
      example_scope_propagates)) 0) (5 : Unsigned 64) := by
  have houtput : 0 < example_scope.outputs := by decide
  have hrun : Run ScopeStep example_scope [.receive example_message]
      (example_scope.receive example_message) := Run.nil.snoc ScopeStep.receive
  have hexact := internals_exact (fun _ _ hle => hle) (Option.some_get example_scope_builds).symm hrun
    ⟨20, (Option.some_get example_scope_propagates).symm⟩ houtput 5
  by_contra hnot
  rw [if_neg hnot] at hexact
  revert hexact
  decide

/-! ### Summaries that are not monotone -/

def minus_one : Signed 8 := ⟨-1, by decide, by decide⟩

def zero : Signed 8 := ⟨0, by decide, by decide⟩

/-- The same scope over signed times, with a summary that subtracts one. -/
def signed_scope_build : Option (Subgraph (Idle (Signed 8)) (Signed 8) (Signed 8) (Signed 8)) :=
  (example_scope_builder minus_one).build IterationOrder.listed true 20

theorem signed_scope_builds : signed_scope_build.isSome := by decide

def signed_scope : Subgraph (Idle (Signed 8)) (Signed 8) (Signed 8) (Signed 8) :=
  signed_scope_build.get signed_scope_builds

/-- Messages at the least time, which the summary is not defined on, and at zero. -/
def signed_messages : List ((Location × Signed 8) × ℤ) :=
  [((Location.new_target 1 0, Timestamp.minimum), 1), ((Location.new_target 1 0, zero), 1)]

theorem signed_scope_propagates :
    ((signed_scope.receive signed_messages).propagate_pointstamps 20).isSome := by decide

def signed_scope_after : Subgraph (Idle (Signed 8)) (Signed 8) (Signed 8) (Signed 8) :=
  ((signed_scope.receive signed_messages).propagate_pointstamps 20).get signed_scope_propagates

theorem signed_scope_mayExpress : signed_scope_after.MayExpress 0 minus_one :=
  ⟨Location.new_target 1 0, zero, Antichain.from_elem minus_one, minus_one, minus_one, by decide,
    by decide, by decide, by decide, by decide, by decide⟩

open Classical in
/-- The message at zero may still be expressed, and nothing is reported: the projection sends
    only the frontier of the pointstamps, on which the summary is not defined. -/
theorem internals_miss_undefined :
    signed_scope_build = some signed_scope ∧
    Run ScopeStep signed_scope [.receive signed_messages] (signed_scope.receive signed_messages) ∧
    (signed_scope.receive signed_messages).Propagates signed_scope_after ∧
    Monotone (Refines.to_outer : Signed 8 → Signed 8) ∧
    ¬ ∀ time, tally (all_extracted [ScopeEvent.receive signed_messages] 0) time +
        (signed_scope_after.internal_of 0).value time =
      if Minimal (signed_scope_after.MayExpress 0) time then 1 else 0 := by
  refine ⟨(Option.some_get signed_scope_builds).symm, Run.nil.snoc ScopeStep.receive, ⟨20, (Option.some_get signed_scope_propagates).symm⟩,
    fun _ _ hle => hle, fun hclaim => ?_⟩
  obtain ⟨least, hleast, hmin⟩ := WellFounded.has_min
    (measure fun time : Signed 8 => (time.val + 128).toNat).wf
    {time | signed_scope_after.MayExpress 0 time} ⟨_, signed_scope_mayExpress⟩
  have hminimal : Minimal (signed_scope_after.MayExpress 0) least := by
    refine ⟨hleast, fun other hother _ => ?_⟩
    have hnot := hmin other hother
    have hlower := least.lower
    have hotherLower := other.lower
    change ¬ (other.val + 128).toNat < (least.val + 128).toNat at hnot
    rw [Signed.le_def]
    norm_num at hlower hotherLower
    omega
  have hvalue := hclaim least
  rw [if_pos hminimal] at hvalue
  have hnone : (signed_scope_after.internal_of 0).updates = [] := by decide
  unfold ChangeBatch.value at hvalue
  rw [hnone] at hvalue
  exact zero_ne_one (show (0 : ℤ) = 1 from hvalue)

end Subgraph

end Timely
