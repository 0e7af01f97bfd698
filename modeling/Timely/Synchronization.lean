/-
  Timely/Synchronization.lean
  ===========================
  **A probe waits for the inputs of all workers** (`timely/src/synchronization/barrier.rs`,
  `timely/src/dataflow/operators/input.rs`, `timely/src/dataflow/operators/probe.rs`).

  A worker that has advanced its input steps until a probe behind it has reached the time
  of its handle.  In a dataflow of inputs, probes and operators of any logic, it then
  knows of all workers: no handle is at an earlier time from which something could come
  to the probe, and no message that could is on its way, or has not been processed.
-/
import Timely.Owners

set_option linter.unusedSectionVars false

namespace Timely

open Library

/-- A probe that has just been built. -/
def Probe.new {T D : Type} [PartialOrder T] [DecidableLE T] [DecidableEq T] [Ord T] [LinearExtension T]
    (arrivals : ℕ → List (Message T D)) : Probe T D :=
  ⟨MutableAntichain.new, false, PullCounter.new, Buffer.new Counter.new, arrivals⟩

/-- Whether all workers have reached the time of a handle: a probe behind it has. -/
def Barrier.reached {T D : Type} [PartialOrder T] [DecidableLE T] [DecidableEq T] [Ord T] [LinearExtension T]
    (input : Handle T D) (probe : Probe T D) : Bool :=
  !probe.less_than input.now_at

/-! ### What has just been built -/

section Built

variable {σ S T D : Type} [PartialOrder T] [DecidableLE T] [DecidableEq T] [Ord T] [LinearExtension T]
  [Timestamp T] [PathSummary S T]

theorem at_port_zero_one (now : T) (output : ℕ) (time : T) :
    at_port 0 now 1 output time = if output < 1 ∧ time = now then 1 else 0 :=
  if_congr (and_congr_left' Nat.lt_one_iff.symm) rfl rfl

/-- A new probe has nothing to report, and holds its capability. -/
theorem Probe.keeps_new {arrivals : ℕ → List (Message T D)} {summary : List (List (Antichain S))}
    (hpromised : ∀ time, Promised summary 0 time 0 time) : (Probe.new arrivals).Keeps summary :=
  ⟨fun time => ChangeBatch.value_new time, fun time => ChangeBatch.value_new time, rfl, hpromised⟩

/-- A new input has nothing to report, and holds its capability. -/
theorem InputOperator.keeps_new_input (tee : List (Exchange T D)) (calls : List (List (InputCall T D))) :
    (InputOperator.new_input tee calls).Keeps := by
  refine ⟨_, rfl, fun time => ?_, fun time => ChangeBatch.value_new time⟩
  change ((ChangeBatch.new.update Timestamp.minimum (-1)).update Timestamp.minimum 1).value time = 0
  rw [ChangeBatch.value_update, ChangeBatch.value_update, ChangeBatch.value_new]
  split <;> rfl

/-- An operator as a child of its scope, with its default connections: before it does anything, one
    capability at the minimum is counted for each worker and output. -/
def AnyOperator.child [DecidableEq S] (index inputs outputs peers : ℕ) (operator : AnyOperator σ T D) :
    PerOperatorState (AnyOperator σ T D) S T where
  index := index
  is_local := true
  notify := true
  inputs := inputs
  outputs := outputs
  count_for_incomplete := true
  operator := some operator
  edges := List.replicate outputs []
  ghost_edges := List.replicate outputs []
  shared_progress :=
    { SharedProgress.new inputs outputs with
      internals := List.replicate outputs (ChangeBatch.new.update Timestamp.minimum (peers : ℤ)) }
  internal_summary := default_connections S T inputs outputs

variable {child : PerOperatorState (AnyOperator σ T D) S T}

/-- A child is a probe, an input, or an operator of any logic, as it has been built. -/
inductive Equipped (child : PerOperatorState (AnyOperator σ T D) S T) : Prop
  | probe (arrivals : ℕ → List (Message T D)) : child.operator = some (.inl (Probe.new arrivals)) →
      child.inputs = 1 → child.outputs = 1 → Equipped child
  | input (tee : List (Exchange T D)) (calls : List (List (InputCall T D))) :
      child.operator = some (.inr (.inl (.new_input tee calls))) → child.inputs = 0 → child.outputs = 1 →
      Equipped child
  | generic (logic : σ → List (MutableAntichain T) →
        Interaction (LogicCall T D) (Option (Message T D)) (σ × Bool)) (state : σ)
      (arrivals : List (List (List (Message T D)))) :
      child.operator = some (.inr (.inr (.build child.inputs child.outputs logic state arrivals))) →
      Equipped child

/-- A child with its default connections, to which nothing has been reported. -/
structure Fitted (child : PerOperatorState (AnyOperator σ T D) S T) : Prop where
  equipped : Equipped child
  connections : child.internal_summary = default_connections S T child.inputs child.outputs
  shaped : child.shared_progress.Shaped child.inputs child.outputs
  nothing : ∀ time, (Subgraph.waiting child.shared_progress.frontiers 0).value time = 0

/-- What has been built keeps to the interface, and holds a capability for each output. -/
theorem Fitted.offers [AdvancingSummary S T] (h : Fitted child) {operator : AnyOperator σ T D}
    (hoperator : child.operator = some operator) :
    (AnyOperator.interface σ S T D).Keeps operator child.internal_summary ∧
      (AnyOperator.interface σ S T D).inputs operator = child.inputs ∧
      (AnyOperator.interface σ S T D).outputs operator = child.outputs ∧ ∀ output time,
        (AnyOperator.interface σ S T D).held operator output time =
          if output < child.outputs ∧ time = Timestamp.minimum then 1 else 0 := by
  have hpromised : ∀ input < child.inputs, ∀ output < child.outputs, ∀ time,
      Promised child.internal_summary input time output time := by
    intro input hinput output houtput time
    rw [h.connections]
    exact promised_default hinput houtput time
  cases h.equipped with
  | probe arrivals hprobe hinputs houtputs =>
    rw [hprobe] at hoperator
    cases hoperator
    rw [hinputs, houtputs] at hpromised
    refine ⟨Probe.keeps_new (hpromised 0 Nat.one_pos 0 Nat.one_pos), hinputs.symm, houtputs.symm,
      fun output time => ?_⟩
    rw [houtputs]
    exact at_port_zero_one _ _ _
  | input tee calls hinput hinputs houtputs =>
    rw [hinput] at hoperator
    cases hoperator
    refine ⟨InputOperator.keeps_new_input tee calls, hinputs.symm, houtputs.symm, fun output time => ?_⟩
    rw [houtputs]
    exact at_port_zero_one _ _ _
  | generic logic state arrivals hbuilt =>
    rw [hbuilt] at hoperator
    cases hoperator
    exact ⟨GenericOperator.keeps_build hpromised, GenericOperator.length_inputs_build,
      GenericOperator.length_outputs_build, GenericOperator.held_build⟩

end Built

/-! ### All workers -/

namespace Cluster

variable {peers : ℕ} {σ S TOuter T D : Type}
  [PartialOrder TOuter] [DecidableLE TOuter] [DecidableEq TOuter] [Ord TOuter] [LinearExtension TOuter]
  [PartialOrder T] [DecidableLE T] [DecidableEq T] [Ord T] [LinearExtension T]
  [Refines TOuter T] [Timestamp T] [PathSummary S T] [AdvancingSummary S T]
  [PartialOrder S] [DecidableLE S] [DecidableEq S]
  {topology : Builder S} {granted : Location × T →₀ ℤ}
  {builders : Fin peers → SubgraphBuilder (AnyOperator σ T D) S TOuter T}
  {starts : Fin peers → Subgraph (AnyOperator σ T D) S TOuter T}

/-- All children have just been built, and each worker was granted the capabilities that these start
    with. -/
def AllFitted (granted : Location × T →₀ ℤ)
    (builders : Fin peers → SubgraphBuilder (AnyOperator σ T D) S TOuter T) : Prop :=
  ∀ (worker : Fin peers) (child : PerOperatorState (AnyOperator σ T D) S T),
    child ∈ (builders worker).children → (child.index = 0 → child.operator = none) ∧
      (child.index ≠ 0 → Fitted child ∧ ∀ output time, granted (Location.new_source child.index output, time) =
        if output < child.outputs ∧ time = Timestamp.minimum then 1 else 0)

theorem AllFitted.provided (h : AllFitted granted builders)
    (hstarted : Started topology granted builders starts) (hwired : ∀ worker, (builders worker).WellWired)
    (hplain : ∀ worker, (builders worker).wrapper_ghost = ∅) :
    Provided (AnyOperator.interface σ S T D) granted starts := by
  intro worker index child operator hindex hchild hoperator
  obtain ⟨original, hmem, rfl, hkept⟩ := hstarted.originals hwired hplain hindex hchild
  obtain ⟨hfitted, hgranted⟩ := (h worker original hmem).2 hindex
  rw [hkept.operator] at hoperator
  obtain ⟨hkeeps, hinputs, houtputs, hheld⟩ := hfitted.offers hoperator
  refine ⟨?_, ⟨?_, ?_, ?_⟩, fun output time => ?_⟩
  · rw [hkept.internal_summary]
    exact hkeeps
  · rw [hkept.consumeds, hinputs]
    exact hfitted.shaped.consumeds
  · rw [hkept.internals, houtputs]
    exact hfitted.shaped.internals
  · rw [hkept.produceds, houtputs]
    exact hfitted.shaped.produceds
  · rw [hheld, hgranted]

theorem AllFitted.freshProbe (h : AllFitted granted builders) (worker : Fin peers) :
    OperatorsAre FreshProbe (builders worker).children := by
  rintro child hmem operator hoperator probe rfl
  obtain ⟨houter, hinner⟩ := h worker child hmem
  have hindex : child.index ≠ 0 := by
    intro hzero
    rw [houter hzero] at hoperator
    cases hoperator
  obtain ⟨hfitted, -⟩ := hinner hindex
  cases hfitted.equipped with
  | probe arrivals hprobe _ _ =>
    rw [hprobe] at hoperator
    cases hoperator
    exact ⟨rfl, rfl, hfitted.nothing⟩
  | input tee calls hinput _ _ =>
    rw [hinput] at hoperator
    cases hoperator
  | generic logic state arrivals hbuilt =>
    rw [hbuilt] at hoperator
    cases hoperator

/-- When a probe says that the time of a handle has been reached, all workers have reached it: at no worker
    the owner of an input has it at a time from which something could come to the probe before, and no message
    exists, whether it has been reported or not, from which it could. -/
theorem barrier_waits_for_all (hacyclic : ∀ location, ¬ topology.Cyclic T location)
    (hstarted : Started topology granted builders starts)
    (hwired : ∀ worker, (builders worker).WellWired) (hplain : ∀ worker, (builders worker).wrapper_ghost = ∅)
    (hfitted : AllFitted granted builders) {moves : List (Move peers TOuter T)}
    {system : Owned peers σ S TOuter T D}
    (hrun : Run (fun before move after => OwnedStep before move after ∧
      ∀ key, ¬ capability key → 0 ≤ after.situation.existing granted key) (Owned.begin_with starts) moves system)
    {worker : Fin peers} {index : ℕ} {probe : Probe T D}
    (hprobe : (system.situation.cluster.workers worker).operator_at index = some (Sum.inl probe))
    (hcalled : probe.started = true) {handle : Handle T D} (hreached : Barrier.reached handle probe = true) :
    (∀ (other : Fin peers) (origin : ℕ) (state : InputState T D) (later : T), origin ≠ 0 →
      system.handle_at other origin = some state → state.closed = false →
      topology.CouldResultIn (Location.new_source origin 0, state.handle.now_at)
        (Location.new_target index 0, later) → ¬ later < handle.now_at) ∧
    ∀ (origin : Location × T) (later : T), 0 < system.situation.existing granted origin →
      topology.CouldResultIn origin (Location.new_target index 0, later) → ¬ later < handle.now_at := by
  have hprovided := hfitted.provided hstarted hwired hplain
  obtain ⟨hdisciplined, hkeeping⟩ := keeping_of_run hacyclic hstarted hwired hplain hprovided hrun
  have hexisting : ∀ (origin : Location × T) (later : T), 0 < system.situation.existing granted origin →
      topology.CouldResultIn origin (Location.new_target index 0, later) → ¬ later < handle.now_at := by
    intro origin later hexists hcould hlt
    have hcovers := less_equal_of_existing topology.advances hstarted hdisciplined (hfitted.freshProbe worker)
      (lookup_of_plain (hwired worker) (hplain worker) index) hprobe hcalled hexists hcould
    rw [Barrier.reached, Probe.less_than_of_less_equal hcovers hlt] at hreached
    cases hreached
  refine ⟨fun other origin state later horigin hstate hopen hcould => ?_, hexisting⟩
  have hsound := hstarted.sound.run topology.advances hdisciplined
  exact hexisting _ later (hkeeping.existing_of_open hsound.disciplined horigin hstate hopen) hcould

/-! ### An example -/

abbrev SynchronizedOperator := AnyOperator ℕ (Unsigned 64) ℕ

abbrev SynchronizedScope := Subgraph SynchronizedOperator (Unsigned 64) (Unsigned 64) (Unsigned 64)

/-- Takes a message, and drops its capability in the first run. -/
def stage_logic (state : ℕ) (_ : List (MutableAntichain (Unsigned 64))) :
    Interaction (LogicCall (Unsigned 64) ℕ) (Option (Message (Unsigned 64) ℕ)) (ℕ × Bool) :=
  .call (.next 0) fun _ =>
    if state = 0 then .call (.capability (.drop 0)) fun _ => .done (1, false) else .done (state, false)

/-- An input, an operator behind it, and a probe; the input of worker zero sends a message. -/
def synchronized_children (worker : Fin 2) :
    List (PerOperatorState SynchronizedOperator (Unsigned 64) (Unsigned 64)) :=
  AnyOperator.child 1 0 1 2 (.inr (.inl (.new_input []
      (if worker.val = 0 then [[.send_batch [7], .advance_to 1]] else [[.advance_to 1]])))) ::
    AnyOperator.child 2 1 1 2 (.inr (.inr (.build 1 1 stage_logic 0
      (if worker.val = 0 then [[[⟨0, [7]⟩]]] else [])))) ::
      AnyOperator.child 3 1 1 2 (.inl (Probe.new fun _ => [])) ::
        (List.range' 4 3).map fun index =>
          AnyOperator.child index 0 0 2 (.inr (.inr (.build 0 0 idle_logic 0 [])))

def synchronized_builders (worker : Fin 2) :
    SubgraphBuilder SynchronizedOperator (Unsigned 64) (Unsigned 64) (Unsigned 64) :=
  (((synchronized_children worker).foldl SubgraphBuilder.add_child (SubgraphBuilder.new_from 1)).connect
    ⟨1, 0⟩ ⟨2, 0⟩).connect ⟨2, 0⟩ ⟨3, 0⟩

def synchronized_granted : List ((Location × Unsigned 64) × ℤ) :=
  [((Location.new_source 1 0, 0), 1), ((Location.new_source 2 0, 0), 1), ((Location.new_source 3 0, 0), 1)]

def synchronized_build (worker : Fin 2) : Option SynchronizedScope :=
  (synchronized_builders worker).build IterationOrder.listed true 20

theorem synchronized_builds : ∀ worker, (synchronized_build worker).isSome := by decide

def synchronized_built (worker : Fin 2) : SynchronizedScope :=
  (synchronized_build worker).get (synchronized_builds worker)

theorem synchronized_initializes : ∀ worker, ((synchronized_built worker).get_internal_summary 20).isSome := by
  decide

def synchronized_starts (worker : Fin 2) : SynchronizedScope :=
  ((synchronized_built worker).get_internal_summary 20).get (synchronized_initializes worker)

def synchronized_topology : Builder (Unsigned 64) :=
  (synchronized_starts ⟨0, Nat.zero_lt_two⟩).pointstamp_tracker.builder

theorem synchronized_started : Started synchronized_topology (collect synchronized_granted)
    synchronized_builders synchronized_starts := by
  refine Started.of_expressed (fun worker => (Option.some_get (synchronized_builds worker)).symm) ?_
    (fun worker => (Option.some_get (synchronized_initializes worker)).symm) (by decide) (by decide)
    (Fin.forall_fin_two.mpr ⟨rfl, rfl⟩) (by decide) (by decide)
  decide

/-- The owner of the input of worker zero sends a message, which is consumed before the input reports it.  Then
    both workers run all that they have, and worker zero hears of this before it calls its probe again. -/
def synchronized_items : List ((Fin 2 × ℕ) ⊕ Event 2 (Unsigned 64) (Unsigned 64)) :=
  [.inl (⟨0, Nat.zero_lt_two⟩, 1), .inr (.scope ⟨0, Nat.zero_lt_two⟩ (.activate_child 2)),
    .inr (.send ⟨0, Nat.zero_lt_two⟩ fun _ => none), .inl (⟨0, Nat.zero_lt_two⟩, 1),
    .inr (.scope ⟨0, Nat.zero_lt_two⟩ (.activate_child 1)),
    .inr (.scope ⟨0, Nat.zero_lt_two⟩ (.activate_child 3)), .inl (⟨1, Nat.one_lt_two⟩, 1),
    .inr (.scope ⟨1, Nat.one_lt_two⟩ (.activate_child 1)), .inr (.scope ⟨1, Nat.one_lt_two⟩ (.activate_child 2)),
    .inr (.send ⟨0, Nat.zero_lt_two⟩ fun _ => none), .inr (.send ⟨1, Nat.one_lt_two⟩ fun _ => none),
    .inr (.recv ⟨0, Nat.zero_lt_two⟩ [⟨0, Nat.zero_lt_two⟩, ⟨0, Nat.zero_lt_two⟩, ⟨1, Nat.one_lt_two⟩]),
    .inr (.scope ⟨0, Nat.zero_lt_two⟩ .propagate_pointstamps),
    .inr (.scope ⟨0, Nat.zero_lt_two⟩ (.activate_child 3))]

theorem synchronized_performs : (synchronized_items.foldlM
    (perform_owned 20 synchronized_topology synchronized_granted)
      (Owned.begin_with synchronized_starts)).isSome := by
  decide

def synchronized_last : Owned 2 ℕ (Unsigned 64) (Unsigned 64) (Unsigned 64) ℕ :=
  (synchronized_items.foldlM (perform_owned 20 synchronized_topology synchronized_granted)
    (Owned.begin_with synchronized_starts)).get synchronized_performs

theorem synchronized_is_acyclic : synchronized_topology.is_acyclic IterationOrder.listed = some true := by
  decide

theorem synchronized_fitted : AllFitted (collect synchronized_granted) synchronized_builders := by
  have hchildren : ∀ worker, (synchronized_builders worker).children =
      PerOperatorState.empty _ _ _ 0 0 :: synchronized_children worker := fun _ => rfl
  have hgranted : ∀ index output time, collect synchronized_granted (Location.new_source index output, time) =
      if (index = 1 ∨ index = 2 ∨ index = 3) ∧ output < 1 ∧ time = Timestamp.minimum then 1 else 0 := by
    intro index output time
    have hkey : ∀ other : ℕ, ((Location.new_source other 0, (0 : Unsigned 64)) =
        (Location.new_source index output, time)) ↔ index = other ∧ output < 1 ∧ time = Timestamp.minimum := by
      intro other
      rw [Prod.mk.injEq, Nat.lt_one_iff]
      unfold Location.new_source
      rw [Location.mk.injEq, Port.source.injEq, and_assoc]
      exact and_congr eq_comm (and_congr eq_comm eq_comm)
    rw [collect_apply, synchronized_granted]
    simp only [tally_cons, tally_nil, add_zero, hkey]
    by_cases hpoint : output < 1 ∧ time = Timestamp.minimum
    · simp only [hpoint, and_true]
      split_ifs <;> omega
    · simp only [hpoint, and_false, if_false, add_zero]
  have hone : ∀ index, (index = 1 ∨ index = 2 ∨ index = 3) → ∀ output time,
      collect synchronized_granted (Location.new_source index output, time) =
        if output < 1 ∧ time = Timestamp.minimum then 1 else 0 := by
    intro index hindex output time
    rw [hgranted]
    exact if_congr (and_iff_right hindex) rfl rfl
  intro worker child hchild
  rw [hchildren, synchronized_children, List.mem_cons, List.mem_cons, List.mem_cons, List.mem_cons,
    List.mem_map] at hchild
  have hnothing : ∀ time, ((ChangeBatch.new : ChangeBatch (Unsigned 64))).value time = 0 :=
    ChangeBatch.value_new
  rcases hchild with rfl | rfl | rfl | rfl | ⟨index, hindex, rfl⟩
  · exact ⟨fun _ => rfl, fun houter => absurd rfl houter⟩
  · exact ⟨fun hzero => absurd hzero (Nat.succ_ne_zero _), fun _ =>
      ⟨⟨Equipped.input _ _ rfl rfl rfl, rfl, ⟨rfl, rfl, rfl⟩, hnothing⟩, hone 1 (by decide)⟩⟩
  · exact ⟨fun hzero => absurd hzero (Nat.succ_ne_zero _), fun _ =>
      ⟨⟨Equipped.generic _ _ _ rfl, rfl, ⟨rfl, rfl, rfl⟩, hnothing⟩, hone 2 (by decide)⟩⟩
  · exact ⟨fun hzero => absurd hzero (Nat.succ_ne_zero _), fun _ =>
      ⟨⟨Equipped.probe _ rfl rfl rfl, rfl, ⟨rfl, rfl, rfl⟩, hnothing⟩, hone 3 (by decide)⟩⟩
  · refine ⟨fun hzero => ?_, fun _ =>
      ⟨⟨Equipped.generic _ _ _ rfl, rfl, ⟨rfl, rfl, rfl⟩, hnothing⟩, fun output time => ?_⟩⟩
    · have := (List.mem_range'_1.mp hindex).1
      change index = 0 at hzero
      omega
    · have hrange := (List.mem_range'_1.mp hindex).1
      change collect synchronized_granted (Location.new_source index output, time) =
        if output < 0 ∧ time = Timestamp.minimum then 1 else 0
      rw [hgranted]
      exact (if_neg fun h => by omega).trans (if_neg fun h => Nat.not_lt_zero _ h.1).symm

theorem synchronized_reads :
    ((synchronized_last.situation.cluster.workers ⟨0, Nat.zero_lt_two⟩).operator_at 3).bind
      (fun operator => operator.getLeft?.map fun probe => (probe.started, probe.frontier.frontier)) =
        some (true, [1]) := by decide

theorem synchronized_input : (synchronized_last.handle_at ⟨1, Nat.one_lt_two⟩ 1).map
    (fun state => (state.closed, state.handle.now_at)) = some (false, 1) := by decide

/-- Worker zero knows that worker one has advanced its input, and that the message has been consumed. -/
theorem barrier_waits_for_all_example : ∃ state : InputState (Unsigned 64) ℕ,
    synchronized_last.handle_at ⟨1, Nat.one_lt_two⟩ 1 = some state ∧ ¬ state.handle.now_at < 1 ∧
    ¬ 0 < synchronized_last.situation.existing (collect synchronized_granted) (Location.new_target 2 0, 0) := by
  obtain ⟨moves, hrun⟩ := exists_run_of_perform_owned synchronized_started.initialized
    (Option.some_get synchronized_performs).symm
  obtain ⟨rank, bound, hranked⟩ := Builder.ranked_of_is_acyclic synchronized_is_acyclic
  obtain ⟨operator, hoperator, hleft⟩ := Option.bind_eq_some_iff.mp synchronized_reads
  obtain ⟨probe, hprobe, hread⟩ := Option.map_eq_some_iff.mp hleft
  obtain ⟨hcalled, hfrontier⟩ := Prod.mk.inj hread
  rw [Sum.getLeft?_eq_some_iff] at hprobe
  subst hprobe
  obtain ⟨state, hstate, hread⟩ := Option.map_eq_some_iff.mp synchronized_input
  obtain ⟨hopen, hnow⟩ := Prod.mk.inj hread
  have hreached : Barrier.reached (⟨[], [], 1⟩ : Handle (Unsigned 64) ℕ) probe = true := by
    unfold Barrier.reached Probe.less_than
    rw [hfrontier]
    rfl
  obtain ⟨hinputs, hmessages⟩ := barrier_waits_for_all hranked.not_cyclic synchronized_started (by decide)
    (Fin.forall_fin_two.mpr ⟨rfl, rfl⟩) synchronized_fitted hrun hoperator hcalled hreached
  have hstep : ∀ {first : Location} (second : Location) {time : Unsigned 64},
      (time, second) ∈ synchronized_topology.implied first time →
        synchronized_topology.CouldResultIn (first, time) (second, time) :=
    fun _ _ hmem => Builder.CouldResultIn.of_step (Builder.mem_implied.mp hmem)
  have hstage : synchronized_topology.CouldResultIn (Location.new_target 2 0, (0 : Unsigned 64))
      (Location.new_target 3 0, 0) :=
    (hstep (Location.new_source 2 0) (by decide)).trans synchronized_topology.advances
      (hstep (Location.new_target 3 0) (by decide))
  have hsource : synchronized_topology.CouldResultIn (Location.new_source 1 0, (1 : Unsigned 64))
      (Location.new_target 3 0, 1) :=
    ((hstep (Location.new_target 2 0) (by decide)).trans synchronized_topology.advances
      (hstep (Location.new_source 2 0) (by decide))).trans synchronized_topology.advances
        (hstep (Location.new_target 3 0) (by decide))
  refine ⟨state, hstate, hinputs ⟨1, Nat.one_lt_two⟩ 1 state _ Nat.one_ne_zero hstate hopen ?_,
    fun hexists => hmessages _ 0 hexists hstage (by decide)⟩
  rw [hnow]
  exact hsource

end Cluster

end Timely
