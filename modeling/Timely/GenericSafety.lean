/-
  Timely/GenericSafety.lean
  =========================
  **Dataflows are safe whatever the logic of their operators is**
  (`timely/src/dataflow/operators/generic/builder_rc.rs`,
  `timely/src/dataflow/operators/capability.rs`, `timely/src/progress/subgraph.rs`).

  The authors of operators need to know nothing of the progress protocol.  In each run
  of the workers of a dataflow of operators that have been built with their connections
  as they are by default, all updates are grounded in capabilities and messages, and
  the frontiers of all workers cover what may still happen.
-/
import Timely.GenericRuns
import Timely.Enforcement
import Timely.Quiescence

set_option linter.unusedSectionVars false

namespace Timely

open Library

/-! ### Building -/

section Building

variable {σ S T D : Type} [PartialOrder T] [DecidableLE T] [DecidableEq T] [Ord T] [LinearExtension T]
  [Timestamp T] [PathSummary S T]

/-- The connections of as many inputs and outputs, by default. -/
def default_connections (S T : Type) [PathSummary S T] (inputs outputs : ℕ) : List (List (Antichain S)) :=
  List.replicate inputs (List.replicate outputs (Antichain.from_elem default))

/-- At each output there may come what comes at an input. -/
theorem promised_default [AdvancingSummary S T] {inputs outputs input output : ℕ} (hinput : input < inputs)
    (houtput : output < outputs) (time : T) :
    Promised (default_connections S T inputs outputs) input time output time := by
  refine ⟨List.replicate outputs (Antichain.from_elem default), Antichain.from_elem default, default, time,
    ?_, ?_, List.mem_singleton.mpr rfl, AdvancingSummary.results_in_default time, le_rfl⟩
  · unfold default_connections
    rw [List.getElem?_replicate, if_pos hinput]
  · rw [List.getElem?_replicate, if_pos houtput]

namespace GenericOperator

/-- An operator with as many inputs and outputs.  What its constructor does with the initial capabilities
    is left to the first run of its logic, as nothing is reported before. -/
def build (inputs outputs : ℕ)
    (logic : σ → List (MutableAntichain T) → Interaction (LogicCall T D) (Option (Message T D)) (σ × Bool))
    (state : σ) (arrivals : List (List (List (Message T D)))) : GenericOperator σ T D where
  logic := logic
  state := state
  frontier := List.replicate inputs MutableAntichain.new
  handles :=
    { inputs := List.replicate inputs PullCounter.new
      outputs := (List.range outputs).map fun output => ⟨Buffer.new Counter.new, ⟨0, output⟩⟩
      holder := Holder.new.build outputs
      references := []
      active := [] }
  arrivals := arrivals

/-- An operator as a child of its scope, with its default connections: before it does anything, one
    capability at the minimum is counted for each worker and output. -/
def child [DecidableEq S] (index inputs outputs peers : ℕ) (operator : GenericOperator σ T D) :
    PerOperatorState (GenericOperator σ T D) S T where
  index := index
  is_local := true
  notify := true
  inputs := inputs
  outputs := outputs
  count_for_incomplete := true
  operator := some operator
  edges := List.replicate outputs []
  ghost_edges := List.replicate outputs []
  shared_progress :=
    { SharedProgress.new inputs outputs with
      internals := List.replicate outputs (ChangeBatch.new.update Timestamp.minimum (peers : ℤ)) }
  internal_summary := default_connections S T inputs outputs

variable {inputs outputs : ℕ}
  {logic : σ → List (MutableAntichain T) → Interaction (LogicCall T D) (Option (Message T D)) (σ × Bool)}
  {state : σ} {arrivals : List (List (List (Message T D)))}

theorem length_outputs_build :
    (build inputs outputs logic state arrivals).handles.outputs.length = outputs := by
  change (List.map _ (List.range outputs)).length = outputs
  rw [List.length_map, List.length_range]

theorem length_inputs_build :
    (build inputs outputs logic state arrivals).handles.inputs.length = inputs :=
  List.length_replicate

/-- The live capabilities of a new operator: one for each output. -/
theorem live_build : (build inputs outputs logic state arrivals).handles.holder.live =
    (outputs_of 0 outputs).map (Capability.mk Timestamp.minimum) := by
  have hbuilt := build_reschedule_eq (T := T) 0 outputs fun _ => ChangeBatch.new
  change [] ++ (build_reschedule 0 outputs fun _ => ChangeBatch.new).2.1 ++ _ = _
  rw [hbuilt, List.nil_append]
  exact List.append_nil _

/-- A new operator holds a capability for each output, at the minimum. -/
theorem held_build (output : ℕ) (time : T) : (build inputs outputs logic state arrivals).held output time =
    if output < outputs ∧ time = Timestamp.minimum then 1 else 0 := by
  unfold held held_in
  rw [live_build]
  have hnodup : ((outputs_of 0 outputs).map (Capability.mk (Timestamp.minimum : T))).Nodup := by
    unfold outputs_of
    rw [List.map_map]
    refine List.Nodup.map ?_ List.nodup_range
    intro first second heq
    cases heq
    rfl
  have hmem : (⟨time, ⟨0, output⟩⟩ : Capability T) ∈
      (outputs_of 0 outputs).map (Capability.mk Timestamp.minimum) ↔
        output < outputs ∧ time = Timestamp.minimum := by
    simp only [List.mem_map, mem_outputs_of, Capability.mk.injEq]
    constructor
    · rintro ⟨internal, ⟨-, houtput⟩, hminimum, rfl⟩
      exact ⟨houtput, hminimum.symm⟩
    · rintro ⟨houtput, rfl⟩
      exact ⟨⟨0, output⟩, ⟨rfl, houtput⟩, rfl, rfl⟩
  rw [hnodup.count]
  by_cases hlive : output < outputs ∧ time = Timestamp.minimum
  · rw [if_pos (hmem.mpr hlive), if_pos hlive, Nat.cast_one]
  · rw [if_neg (mt hmem.mp hlive), if_neg hlive, Nat.cast_zero]

/-- A new operator keeps its promises. -/
theorem keeps_build {summary : List (List (Antichain S))}
    (hpromised : ∀ input < inputs, ∀ output < outputs, ∀ time, Promised summary input time output time) :
    (build inputs outputs logic state arrivals).Keeps summary := by
  have hbuilt := build_reschedule_eq (T := T) 0 outputs fun _ => ChangeBatch.new
  have hcore : (build inputs outputs logic state arrivals).handles.holder.operators =
      [(build_reschedule (T := T) 0 outputs fun _ => ChangeBatch.new).1] := rfl
  have hcells : (build inputs outputs logic state arrivals).handles.holder.cells =
      (build_reschedule (T := T) 0 outputs fun _ => ChangeBatch.new).2.2 := rfl
  rw [hbuilt] at hcore hcells
  have hwrapper : ∀ {output : ℕ} {wrapper : OutputWrapper T D},
      (build inputs outputs logic state arrivals).handles.outputs[output]? = some wrapper →
        wrapper = ⟨Buffer.new Counter.new, ⟨0, output⟩⟩ := by
    intro output wrapper hwrapper
    change (List.map _ (List.range outputs))[output]? = some wrapper at hwrapper
    rw [List.getElem?_map] at hwrapper
    obtain ⟨index, hindex, rfl⟩ := Option.map_eq_some_iff.mp hwrapper
    obtain ⟨hlt, rfl⟩ := List.getElem?_eq_some_iff.mp hindex
    rw [List.getElem_range]
  refine ⟨⟨⟨_, hcore, ?_⟩, fun capability hlive => ?_, fun output wrapper hfound => ?_,
    fun output wrapper hfound _ => ?_⟩, rfl, rfl, ?_, fun output houtput time => ?_, ?_, ?_⟩
  · rw [length_outputs_build]
  · rw [live_build] at hlive
    obtain ⟨internal, hinternal, rfl⟩ := List.mem_map.mp hlive
    exact ⟨_, by rw [hcore]; exact List.mem_singleton_self _, hinternal⟩
  · rw [hwrapper hfound]
  · rw [hwrapper hfound]
    rfl
  · funext port time
    unfold Handles.consumed sums Subgraph.waiting
    rw [List.getElem?_map]
    cases hcounter : (build inputs outputs logic state arrivals).handles.inputs[port]? with
    | none => rfl
    | some counter =>
      rw [List.eq_of_mem_replicate (List.mem_of_getElem? hcounter)]
      rfl
  · rw [hcells]
    dsimp only
    split <;> rfl
  · funext port time
    unfold Handles.produced sums Subgraph.waiting
    rw [List.getElem?_map]
    cases hfound : (build inputs outputs logic state arrivals).handles.outputs[port]? with
    | none => rfl
    | some wrapper =>
      rw [hwrapper hfound]
      rfl
  · rw [length_inputs_build, length_outputs_build]
    exact hpromised

end GenericOperator

end Building

/-! ### Dataflows of such operators -/

namespace Cluster

variable {peers : ℕ} {σ S TOuter TInner D : Type}
  [PartialOrder TOuter] [DecidableLE TOuter] [DecidableEq TOuter] [Ord TOuter] [LinearExtension TOuter]
  [PartialOrder TInner] [DecidableLE TInner] [DecidableEq TInner] [Ord TInner] [LinearExtension TInner]
  [Refines TOuter TInner] [Timestamp TInner] [PathSummary S TInner] [AdvancingSummary S TInner]
  [PartialOrder S] [DecidableLE S] [DecidableEq S]
  {topology : Builder S} {granted : Location × TInner →₀ ℤ}
  {builders : Fin peers → SubgraphBuilder (GenericOperator σ TInner D) S TOuter TInner}
  {starts : Fin peers → Subgraph (GenericOperator σ TInner D) S TOuter TInner}

/-- A child is an operator that has been built, with any logic and any messages to arrive. -/
structure Installed (child : PerOperatorState (GenericOperator σ TInner D) S TInner) : Prop where
  operator : ∃ logic state arrivals,
    child.operator = some (GenericOperator.build child.inputs child.outputs logic state arrivals)
  connections : child.internal_summary = default_connections S TInner child.inputs child.outputs
  shaped : child.shared_progress.Shaped child.inputs child.outputs

/-- All children are operators that have been built, and each worker was granted the capabilities that
    these start with. -/
def AllInstalled (granted : Location × TInner →₀ ℤ)
    (builders : Fin peers → SubgraphBuilder (GenericOperator σ TInner D) S TOuter TInner) : Prop :=
  ∀ (worker : Fin peers) (child : PerOperatorState (GenericOperator σ TInner D) S TInner),
    child ∈ (builders worker).children → child.index ≠ 0 → Installed child ∧ ∀ output time,
      granted (Location.new_source child.index output, time) =
        if output < child.outputs ∧ time = Timestamp.minimum then 1 else 0

/-- What is installed keeps to the interface at first. -/
theorem AllInstalled.provided (h : AllInstalled granted builders)
    (hstarted : Started topology granted builders starts) (hwired : ∀ worker, (builders worker).WellWired)
    (hplain : ∀ worker, (builders worker).wrapper_ghost = ∅) :
    Provided (GenericOperator.interface σ S TInner D) granted starts := by
  intro worker index child operator hindex hchild hoperator
  obtain ⟨original, hmem, rfl, hkept⟩ := hstarted.originals hwired hplain hindex hchild
  obtain ⟨hinstalled, hgranted⟩ := h worker original hmem hindex
  obtain ⟨logic, state, arrivals, hbuilt⟩ := hinstalled.operator
  rw [hkept.operator, hbuilt] at hoperator
  cases hoperator
  refine ⟨?_, ⟨?_, ?_, ?_⟩, fun output time => ?_⟩
  · rw [hkept.internal_summary, hinstalled.connections]
    exact GenericOperator.keeps_build fun input hinput output houtput => promised_default hinput houtput
  · exact (hkept.consumeds.trans hinstalled.shaped.consumeds).trans
      GenericOperator.length_inputs_build.symm
  · exact (hkept.internals.trans hinstalled.shaped.internals).trans
      GenericOperator.length_outputs_build.symm
  · exact (hkept.produceds.trans hinstalled.shaped.produceds).trans
      GenericOperator.length_outputs_build.symm
  · rw [hgranted]
    exact GenericOperator.held_build output time

/-- Operators that are built with their default connections cannot break the progress protocol, whatever
    their logic does: in every run of the workers in which messages are consumed that exist, all updates
    are grounded, and the frontiers of every worker cover all that what exists could result in. -/
theorem handles_enforce_safety (hacyclic : ∀ location, ¬ topology.Cyclic TInner location)
    (hstarted : Started topology granted builders starts)
    (hwired : ∀ worker, (builders worker).WellWired) (hplain : ∀ worker, (builders worker).wrapper_ghost = ∅)
    (hinstalled : AllInstalled granted builders) {events : List (Event peers TOuter TInner)}
    {last : Cluster peers (GenericOperator σ TInner D) S TOuter TInner}
    (hrun : Run (fun before event after => Step before event after ∧
      ∀ key, ¬ capability key → 0 ≤ existing granted after key) (start starts) events last) :
    Run (DisciplinedStep topology granted) (begin_with starts) (events.map Move.event)
        (Situation.settled last) ∧
      ∀ (worker : Fin peers) (origin target : Location × TInner), 0 < last.existing granted origin →
        topology.CouldResultIn origin target → Covers (last.frontier_of worker) target.1 target.2 := by
  have hadvances : topology.Advances TInner := topology.advances
  have hdisciplined := disciplined_of_interface hadvances hacyclic hstarted hwired hplain
    (hinstalled.provided hstarted hwired hplain) hrun
  refine ⟨hdisciplined, fun worker origin target hexists hcould => ?_⟩
  obtain ⟨seen, hreached⟩ := hstarted.reached hadvances hdisciplined worker
  rw [← Situation.existing_settled] at hexists
  exact hreached.covers_existing hexists hcould

/-! ### An example -/

/-- Sends one message in its first run, and then downgrades its capability. -/
def source_logic (state : ℕ) (_ : List (MutableAntichain (Unsigned 64))) :
    Interaction (LogicCall (Unsigned 64) ℕ) (Option (Message (Unsigned 64) ℕ)) (ℕ × Bool) :=
  if state = 0 then
    .call (.activate 0) fun _ =>
      .call (.session 0 (.owned (.held 0)) [.give 7]) fun _ =>
        .call (.release 0) fun _ =>
          .call (.capability (.downgrade 0 1)) fun _ => .done (1, true)
  else .done (state, false)

/-- Counts the messages that it takes from its input. -/
def sink_logic (state : ℕ) (_ : List (MutableAntichain (Unsigned 64))) :
    Interaction (LogicCall (Unsigned 64) ℕ) (Option (Message (Unsigned 64) ℕ)) (ℕ × Bool) :=
  .call (.next 0) fun reply => .done (state + reply.toList.length, false)

/-- Does nothing. -/
def idle_logic (state : ℕ) (_ : List (MutableAntichain (Unsigned 64))) :
    Interaction (LogicCall (Unsigned 64) ℕ) (Option (Message (Unsigned 64) ℕ)) (ℕ × Bool) :=
  .done (state, false)

/-- What arrives at the sink of worker zero is what the source has sent. -/
def handles_children (worker : Fin 2) :
    List (PerOperatorState (GenericOperator ℕ (Unsigned 64) ℕ) (Unsigned 64) (Unsigned 64)) :=
  GenericOperator.child 1 0 1 2 (.build 0 1 source_logic 0 []) ::
    GenericOperator.child 2 1 0 2
      (.build 1 0 sink_logic 0 (if worker.val = 0 then [[[⟨0, [7]⟩]]] else [])) ::
      (List.range' 3 4).map fun index => GenericOperator.child index 0 0 2 (.build 0 0 idle_logic 0 [])

def handles_builders (worker : Fin 2) : SubgraphBuilder (GenericOperator ℕ (Unsigned 64) ℕ)
    (Unsigned 64) (Unsigned 64) (Unsigned 64) :=
  ((handles_children worker).foldl SubgraphBuilder.add_child (SubgraphBuilder.new_from 1)).connect
    ⟨1, 0⟩ ⟨2, 0⟩

def handles_granted : List ((Location × Unsigned 64) × ℤ) := [((Location.new_source 1 0, 0), 1)]

def handles_build (worker : Fin 2) : Option (Subgraph (GenericOperator ℕ (Unsigned 64) ℕ)
    (Unsigned 64) (Unsigned 64) (Unsigned 64)) :=
  (handles_builders worker).build IterationOrder.listed true 20

theorem handles_builds : ∀ worker, (handles_build worker).isSome := by decide

def handles_built (worker : Fin 2) : Subgraph (GenericOperator ℕ (Unsigned 64) ℕ)
    (Unsigned 64) (Unsigned 64) (Unsigned 64) :=
  (handles_build worker).get (handles_builds worker)

theorem handles_initializes : ∀ worker, ((handles_built worker).get_internal_summary 20).isSome := by
  decide

def handles_starts (worker : Fin 2) : Subgraph (GenericOperator ℕ (Unsigned 64) ℕ)
    (Unsigned 64) (Unsigned 64) (Unsigned 64) :=
  ((handles_built worker).get_internal_summary 20).get (handles_initializes worker)

def handles_topology : Builder (Unsigned 64) :=
  (handles_starts ⟨0, Nat.zero_lt_two⟩).pointstamp_tracker.builder

theorem handles_started :
    Started handles_topology (collect handles_granted) handles_builders handles_starts := by
  refine Started.of_expressed (fun worker => (Option.some_get (handles_builds worker)).symm) ?_
    (fun worker => (Option.some_get (handles_initializes worker)).symm) (by decide) (by decide)
    (Fin.forall_fin_two.mpr ⟨rfl, rfl⟩) (by decide) (by decide)
  decide

/-- Worker zero runs its source and sends, the sink takes the message, and worker one is told. -/
def handles_events : List (Event 2 (Unsigned 64) (Unsigned 64)) :=
  [.scope ⟨0, Nat.zero_lt_two⟩ (.activate_child 1), .send ⟨0, Nat.zero_lt_two⟩ fun _ => none,
    .recv ⟨1, Nat.one_lt_two⟩ [⟨0, Nat.zero_lt_two⟩], .scope ⟨0, Nat.zero_lt_two⟩ (.activate_child 2),
    .scope ⟨1, Nat.one_lt_two⟩ .propagate_pointstamps]

theorem handles_performs : ((handles_events.map Move.event).foldlM
    (perform_disciplined 20 handles_topology handles_granted) (begin_with handles_starts)).isSome := by
  decide

def handles_reached : Situation 2 (GenericOperator ℕ (Unsigned 64) ℕ)
    (Unsigned 64) (Unsigned 64) (Unsigned 64) :=
  ((handles_events.map Move.event).foldlM (perform_disciplined 20 handles_topology handles_granted)
    (begin_with handles_starts)).get handles_performs

def handles_last : Cluster 2 (GenericOperator ℕ (Unsigned 64) ℕ)
    (Unsigned 64) (Unsigned 64) (Unsigned 64) := handles_reached.cluster

theorem handles_is_acyclic : handles_topology.is_acyclic IterationOrder.listed = some true := by decide

theorem handles_installed : AllInstalled (collect handles_granted) handles_builders := by
  have hchildren : ∀ worker, (handles_builders worker).children =
      PerOperatorState.empty _ _ _ 0 0 :: handles_children worker := fun _ => rfl
  have hgranted : ∀ location time, collect handles_granted (location, time) =
      if location = Location.new_source 1 0 ∧ time = 0 then 1 else 0 := by
    intro location time
    rw [collect_apply, handles_granted, tally_cons, tally_nil, add_zero]
    exact if_congr (by rw [Prod.mk.injEq, eq_comm, @eq_comm _ time]) rfl rfl
  intro worker child hchild houter
  rw [hchildren, handles_children, List.mem_cons, List.mem_cons, List.mem_cons, List.mem_map] at hchild
  rcases hchild with rfl | rfl | rfl | ⟨index, hindex, rfl⟩
  · exact absurd rfl houter
  · refine ⟨⟨⟨source_logic, 0, [], rfl⟩, rfl, rfl, rfl, rfl⟩, fun output time => ?_⟩
    rw [hgranted]
    refine if_congr (and_congr_left' ?_) rfl rfl
    change Location.new_source 1 output = Location.new_source 1 0 ↔ output < 1
    rw [Nat.lt_one_iff]
    exact ⟨fun heq => by cases heq; rfl, fun heq => by rw [heq]⟩
  · refine ⟨⟨⟨sink_logic, 0, _, rfl⟩, rfl, rfl, rfl, rfl⟩, fun output time => ?_⟩
    have hnode : (2 : ℕ) ≠ 1 := by decide
    rw [hgranted, if_neg (fun h => hnode (congrArg Location.node h.1)), if_neg]
    exact fun h => Nat.not_lt_zero _ h.1
  · refine ⟨⟨⟨idle_logic, 0, [], rfl⟩, rfl, rfl, rfl, rfl⟩, fun output time => ?_⟩
    have hnode : index ≠ 1 := by
      have := (List.mem_range'_1.mp hindex).1
      omega
    rw [hgranted, if_neg (fun h => hnode (congrArg Location.node h.1)), if_neg]
    exact fun h => Nat.not_lt_zero _ h.1

/-- What the workers have done, and what worker one is still to learn. -/
theorem handles_enforce_safety_example :
    handles_last.existing (collect handles_granted) (Location.new_source 1 0, 1) = 1 ∧
    (handles_last.workers ⟨1, Nat.one_lt_two⟩).count (Location.new_target 2 0, 0) ≠
      handles_last.existing (collect handles_granted) (Location.new_target 2 0, 0) ∧
    Covers (handles_last.frontier_of ⟨1, Nat.one_lt_two⟩) (Location.new_target 2 0) 1 := by
  have hexists : handles_last.existing (collect handles_granted) (Location.new_source 1 0, 1) = 1 := by decide
  have hmoves : Run (DisciplinedStep handles_topology (collect handles_granted)) (begin_with handles_starts)
      (handles_events.map Move.event) handles_reached :=
    run_of_perform_disciplined handles_started.initialized (Option.some_get handles_performs).symm
  have hrun := (settled_of_run hmoves).2
  have hcould : handles_topology.CouldResultIn (Location.new_source 1 0, (1 : Unsigned 64))
      (Location.new_target 2 0, 1) :=
    Builder.CouldResultIn.of_step (Builder.mem_implied.mp (by decide))
  obtain ⟨rank, bound, hranked⟩ := Builder.ranked_of_is_acyclic handles_is_acyclic
  refine ⟨hexists, by decide, ?_⟩
  exact (handles_enforce_safety hranked.not_cyclic handles_started (by decide)
    (Fin.forall_fin_two.mpr ⟨rfl, rfl⟩) handles_installed (hrun.mono fun hstep =>
      ⟨hstep.1, fun key _ => (Situation.existing_settled key).le.trans' (hstep.2.exist key)⟩)).2 ⟨1, Nat.one_lt_two⟩ _ _
        (hexists.symm ▸ Int.one_pos) hcould

end Cluster

end Timely
