/-
  Timely/Probe.lean
  =================
  **A probe never reports too much progress**
  (`timely/src/dataflow/operators/probe.rs`).

  A probe forwards what it receives, and surfaces all changes of its input frontier
  to a frontier that handles share.  Handles are read between the calls of the
  probe, when the worker has learned of progress that the probe has not taken yet.
  Since frontiers do not retreat, what a handle reads is late, and never early.
-/
import Timely.Pullers
import Timely.NestedFrontiers
import Timely.Quiescence

set_option linter.unusedSectionVars false

namespace Timely

open Library

/-- A probe: the frontier that it shares with the handles, whether it has been called, its input and its
    output, and the messages that arrive before the calls to come. -/
structure Probe (T D : Type) [Ord T] where
  frontier : MutableAntichain T
  started : Bool
  input : PullCounter T D
  output : Buffer T D
  arrivals : ℕ → List (Message T D)

namespace Probe

variable {T D : Type} [PartialOrder T] [DecidableLE T] [DecidableEq T] [Ord T] [LinearExtension T]

/-! ### What a handle reads -/

/-- Whether the frontier is strictly less than the time. -/
def less_than (probe : Probe T D) (time : T) : Bool :=
  probe.frontier.frontier.any fun least => Timely.less_than least time

/-- Whether the frontier is less than or equal to the time. -/
def less_equal (probe : Probe T D) (time : T) : Bool :=
  probe.frontier.frontier.any fun least => least ≤ time

/-- Whether the frontier is empty. -/
def done (probe : Probe T D) : Bool := probe.frontier.is_empty

/-! ### The operator -/

/-- Forward a message. -/
def forward (output : Buffer T D) (message : Message T D) : Buffer T D :=
  ((output.session message.time).give_vec message.data).buffer

/-- Move counts into the first batch. -/
def drain_into_first (counts : ChangeBatch T) (batches : List (ChangeBatch T)) :
    Option (ChangeBatch T × List (ChangeBatch T)) :=
  (batches[0]?).map fun batch => ((counts.drain_into batch).1, batches.set 0 (counts.drain_into batch).2)

variable [Timestamp T]

/-- Discard the initial capability in the first call. -/
def discard (probe : Probe T D) (internals : List (ChangeBatch T)) : Option (List (ChangeBatch T)) :=
  if probe.started then some internals else update_at internals 0 Timestamp.minimum (-1)

/-- Surface all frontier changes, forward all messages, and report what has been consumed and
    produced. -/
def schedule (probe : Probe T D) (progress : SharedProgress T) :
    Option (Bool × Probe T D × SharedProgress T) :=
  (progress.frontiers[0]?).bind fun changes =>
    (probe.discard progress.internals).bind fun internals =>
      let input : PullCounter T D := { probe.input with pullable := probe.input.pullable ++ probe.arrivals 0 }
      let forwarded := input.while_next forward probe.output
      let output := forwarded.2.cease
      (drain_into_first forwarded.1.consumed progress.consumeds).bind fun consumeds =>
        (drain_into_first output.pusher.produced progress.produceds).map fun produceds =>
          (false,
            { frontier := (probe.frontier.update_iter changes.drain.1).2
              started := true
              input := { forwarded.1 with consumed := consumeds.1 }
              output := { output with pusher := { output.pusher with produced := produceds.1 } }
              arrivals := fun call => probe.arrivals (call + 1) },
            { progress with
              frontiers := progress.frontiers.set 0 changes.drain.2
              internals := internals
              consumeds := consumeds.2
              produceds := produceds.2 })

/-- Operators are scheduled when their frontiers have been set. -/
instance : Operate (Probe T D) T where
  schedule := schedule
  set_external_summary probe progress := (probe.schedule progress).map Prod.snd

/-- What a call does to the frontiers. -/
theorem schedule_cases {probe probe' : Probe T D} {progress progress' : SharedProgress T} {flag : Bool}
    (h : probe.schedule progress = some (flag, probe', progress')) :
    ∃ changes, progress.frontiers[0]? = some changes ∧
      probe'.frontier = (probe.frontier.update_iter changes.drain.1).2 ∧ probe'.started = true ∧
      progress'.frontiers = progress.frontiers.set 0 changes.drain.2 := by
  obtain ⟨changes, hchanges, h⟩ := Option.bind_eq_some_iff.mp h
  obtain ⟨internals, -, h⟩ := Option.bind_eq_some_iff.mp h
  obtain ⟨consumeds, -, h⟩ := Option.bind_eq_some_iff.mp h
  obtain ⟨produceds, -, h⟩ := Option.map_eq_some_iff.mp h
  cases h
  exact ⟨changes, hchanges, rfl, rfl, rfl⟩

/-- Either way to call a probe schedules it. -/
theorem scheduled_of_calls {probe probe' : Probe T D} {progress progress' : SharedProgress T}
    (h : Subgraph.Calls probe progress probe' progress') :
    ∃ flag, probe.schedule progress = some (flag, probe', progress') := by
  rcases h with h | h
  · exact h
  · obtain ⟨⟨flag, outcome⟩, hschedule, rfl⟩ := Option.map_eq_some_iff.mp h
    exact ⟨flag, hschedule⟩

/-! ### Frontier changes -/

/-- A probe that has surfaced the frontier up to the changes that wait for it. -/
structure Surfaces (frontier : List T) (probe : Probe T D) (frontiers : List (ChangeBatch T)) : Prop where
  settled : probe.frontier.Settled
  balance : ∀ time, probe.frontier.count_for time + (Subgraph.waiting frontiers 0).value time =
    if time ∈ frontier then 1 else 0

/-- A call surfaces all changes: the handles read the frontier then. -/
theorem Surfaces.called {frontier : List T} {probe probe' : Probe T D}
    {progress progress' : SharedProgress T} (h : Surfaces frontier probe progress.frontiers)
    (hcall : Subgraph.Calls probe progress probe' progress') :
    Surfaces frontier probe' progress'.frontiers ∧ probe'.started = true ∧
      ∀ time ∈ frontier, probe'.less_equal time = true := by
  obtain ⟨flag, hschedule⟩ := scheduled_of_calls hcall
  obtain ⟨changes, hchanges, hfrontier, hstarted, hfrontiers⟩ := schedule_cases hschedule
  have hupdated := h.settled.update_iter changes.drain.1
  have hlength : 0 < progress.frontiers.length := (List.getElem?_eq_some_iff.mp hchanges).1
  have hbefore : Subgraph.waiting progress.frontiers 0 = changes := by
    unfold Subgraph.waiting
    rw [hchanges, Option.getD_some]
  have hafter : ∀ time, (Subgraph.waiting progress'.frontiers 0).value time = 0 := by
    intro time
    unfold Subgraph.waiting
    rw [hfrontiers, List.getElem?_set_self hlength, Option.getD_some]
    exact ChangeBatch.value_new time
  have hcounts : ∀ time, probe'.frontier.count_for time = if time ∈ frontier then 1 else 0 := by
    intro time
    have hbalance := h.balance time
    have hdrained : tally changes.drain.1 time = changes.value time := ChangeBatch.tally_compact changes time
    rw [hfrontier, hupdated.count, hdrained, ← hbefore]
    exact hbalance
  have hsettled : probe'.frontier.Settled := by
    rw [hfrontier]
    exact hupdated.settled
  refine ⟨⟨hsettled, fun time => ?_⟩, hstarted, fun time htime => ?_⟩
  · rw [hafter, add_zero]
    exact hcounts time
  · have hpos : 0 < probe'.frontier.count_for time := by
      rw [hcounts, if_pos htime]
      exact one_pos
    obtain ⟨least, hleast, hle⟩ := hsettled.frontier.covers time hpos
    exact List.any_eq_true.mpr ⟨least, hleast, decide_eq_true hle⟩

theorem less_equal_mono {probe : Probe T D} {early late : T} (h : probe.less_equal early = true)
    (hle : early ≤ late) : probe.less_equal late = true := by
  obtain ⟨least, hleast, hearly⟩ := List.any_eq_true.mp h
  exact List.any_eq_true.mpr ⟨least, hleast, decide_eq_true ((of_decide_eq_true hearly).trans hle)⟩

theorem less_than_of_less_equal {probe : Probe T D} {early late : T} (h : probe.less_equal early = true)
    (hlt : early < late) : probe.less_than late = true := by
  obtain ⟨least, hleast, hearly⟩ := List.any_eq_true.mp h
  exact List.any_eq_true.mpr ⟨least, hleast, less_than_iff.mpr ((of_decide_eq_true hearly).trans_lt hlt)⟩

/-- A probe that has just been built. -/
structure Fresh (probe : Probe T D) (frontiers : List (ChangeBatch T)) : Prop where
  frontier : probe.frontier = MutableAntichain.new
  not_started : probe.started = false
  nothing : ∀ time, (Subgraph.waiting frontiers 0).value time = 0

theorem Fresh.surfaces {probe : Probe T D} {frontiers : List (ChangeBatch T)} (h : probe.Fresh frontiers) :
    Surfaces [] probe frontiers := by
  refine ⟨h.frontier ▸ MutableAntichain.settled_new, fun time => ?_⟩
  rw [h.nothing, h.frontier, if_neg List.not_mem_nil]
  rfl

end Probe

/-! ### Probes in a scope -/

section Scope

variable {O S TOuter T D : Type}
  [PartialOrder TOuter] [DecidableLE TOuter] [DecidableEq TOuter] [Ord TOuter]
  [LinearExtension TOuter]
  [PartialOrder T] [DecidableLE T] [DecidableEq T] [Ord T] [LinearExtension T] [Timestamp T]
  [Refines TOuter T] [PathSummary S T] [Operate O T]
  {subgraph after : Subgraph (Probe T D ⊕ O) S TOuter T} {index : ℕ}

/-- The frontier that a scope tracks at the first input of a child. -/
def Subgraph.first_frontier {O : Type} (subgraph : Subgraph O S TOuter T) (index : ℕ) : List T :=
  (subgraph.pointstamp_tracker.implications_at (Location.new_target index 0)).frontier

/-- A child that is no ghost has surfaced its frontier if it is a probe. -/
structure Surfaced (subgraph : Subgraph (Probe T D ⊕ O) S TOuter T) (index : ℕ) : Prop where
  resting : subgraph.Resting
  no_ghost : subgraph.ghost_wrapper.lookup index = none
  surfaces : ∀ probe frontiers, subgraph.lodged index = some (Sum.inl probe, frontiers) →
    probe.Surfaces (subgraph.first_frontier index) frontiers

/-- A probe that has been called is late: its handles read what was before the frontier of its input. -/
def Late (subgraph : Subgraph (Probe T D ⊕ O) S TOuter T) (index : ℕ) : Prop :=
  ∀ probe frontiers, subgraph.lodged index = some (Sum.inl probe, frontiers) → probe.started = true →
    ∀ time ∈ subgraph.first_frontier index, probe.less_equal time = true

/-- What is delivered makes up for what changes in the frontier. -/
theorem Surfaced.propagates (h : Surfaced subgraph index) (hpropagates : subgraph.Propagates after) :
    Surfaced after index := by
  obtain ⟨tracker, changes, hdelivery⟩ := h.resting.delivery hpropagates
  have hghosts := (Subgraph.framed_propagates hpropagates).ghost_wrapper
  refine ⟨hdelivery.resting, (congrArg _ hghosts).trans h.no_ghost, fun probe frontiers hlodged => ?_⟩
  obtain ⟨before, hbefore⟩ := hpropagates.lodged hlodged
  obtain ⟨hsettled, hbalance⟩ := h.surfaces probe before hbefore
  refine ⟨hsettled, fun time => ?_⟩
  have hpending := hdelivery.pending index 0 time
  unfold Subgraph.pending at hpending
  simp only [hghosts, h.no_ghost] at hpending
  rw [Subgraph.input_frontier_of_lodged hlodged, Subgraph.input_frontier_of_lodged hbefore,
    Subgraph.frontier_change] at hpending
  have hsum := hbalance time
  unfold Subgraph.first_frontier at hsum ⊢
  linarith

/-- A step keeps what has been surfaced. -/
theorem Surfaced.step {event : ScopeEvent TOuter T} (h : Surfaced subgraph index)
    (hstep : Subgraph.ScopeStep subgraph event after) : Surfaced after index := by
  rcases hstep.lodged_cases index with hpropagates | ⟨hsame, hcases⟩
  · exact h.propagates hpropagates
  · have hghosts : after.ghost_wrapper = subgraph.ghost_wrapper := by
      rcases hstep.framed with hframed | ⟨child_index, flag, -, hactivate⟩
      · exact hframed.ghost_wrapper
      · exact (Subgraph.untracked_of_activate_child hactivate).wrappers.1
    have hfrontier : after.first_frontier index = subgraph.first_frontier index :=
      congrArg MutableAntichain.frontier (hsame.implications_at _)
    refine ⟨h.resting.step hstep, (congrArg _ hghosts).trans h.no_ghost, fun probe' frontiers hlodged => ?_⟩
    rw [hfrontier]
    rcases hcases with hkept | hnone | ⟨child, operator, operator', shared', hchild, hoperator, hcall, hafter⟩
    · rw [hkept] at hlodged
      exact h.surfaces probe' frontiers hlodged
    · rw [hnone] at hlodged
      cases hlodged
    · rw [hafter] at hlodged
      obtain ⟨rfl, rfl⟩ := Prod.mk.inj (Option.some.inj hlodged)
      obtain ⟨probe, rfl, hprobe⟩ := Subgraph.calls_inl hcall
      exact ((h.surfaces probe _ (Subgraph.lodged_of_child hchild hoperator)).called hprobe).1

/-- A step in which the frontier does not retreat keeps a probe late. -/
theorem Late.step {event : ScopeEvent TOuter T} (h : Late subgraph index) (hsurfaced : Surfaced subgraph index)
    (hstep : Subgraph.ScopeStep subgraph event after)
    (hadvance : ∀ time ∈ after.first_frontier index, ∃ least ∈ subgraph.first_frontier index, least ≤ time) :
    Late after index := by
  intro probe' frontiers hlodged hstarted time htime
  obtain ⟨least, hleast, hle⟩ := hadvance time htime
  have hkept : (∃ before, subgraph.lodged index = some (Sum.inl probe', before)) →
      probe'.less_equal time = true := by
    rintro ⟨before, hbefore⟩
    exact Probe.less_equal_mono (h probe' before hbefore hstarted least hleast) hle
  rcases hstep.lodged_cases index with hpropagates | ⟨hsame, hcases⟩
  · exact hkept (hpropagates.lodged hlodged)
  · rcases hcases with hsame | hnone | ⟨child, operator, operator', shared', hchild, hoperator, hcall, hafter⟩
    · exact hkept ⟨frontiers, hsame ▸ hlodged⟩
    · rw [hnone] at hlodged
      cases hlodged
    · rw [hafter] at hlodged
      obtain ⟨rfl, rfl⟩ := Prod.mk.inj (Option.some.inj hlodged)
      obtain ⟨probe, rfl, hprobe⟩ := Subgraph.calls_inl hcall
      have hcalled := (hsurfaced.surfaces probe _ (Subgraph.lodged_of_child hchild hoperator)).called hprobe
      exact Probe.less_equal_mono (hcalled.2.2 least hleast) hle

end Scope

/-! ### Operators as they are built -/

section Build

variable {O S TOuter TInner : Type}
  [PartialOrder TOuter] [DecidableLE TOuter] [DecidableEq TOuter] [Ord TOuter]
  [LinearExtension TOuter]
  [PartialOrder TInner] [DecidableLE TInner] [DecidableEq TInner] [Ord TInner]
  [LinearExtension TInner] [Refines TOuter TInner]
  {P : O → List (ChangeBatch TInner) → Prop}

/-- Each of the children has an operator of a kind, if it has one. -/
def OperatorsAre (P : O → List (ChangeBatch TInner) → Prop) (children : List (PerOperatorState O S TInner)) :
    Prop :=
  ∀ child ∈ children, ∀ operator, child.operator = some operator → P operator child.shared_progress.frontiers

/-- Replacing a child by one with the same operator. -/
theorem OperatorsAre.set {children : List (PerOperatorState O S TInner)} (h : OperatorsAre P children)
    (index : ℕ) {changed : PerOperatorState O S TInner}
    (hchanged : ∀ operator, changed.operator = some operator → P operator changed.shared_progress.frontiers) :
    OperatorsAre P (children.set index changed) := by
  intro child hchild
  rcases List.mem_or_eq_of_mem_set hchild with hmem | rfl
  · exact h child hmem
  · exact hchanged

/-- Building connects the children, and leaves their operators. -/
theorem operatorsAre_of_build [PartialOrder S] [DecidableLE S] [PathSummary S TInner]
    {builder : SubgraphBuilder O S TOuter TInner} {iteration : IterationOrder ℕ} {eager : Bool}
    {fuel : ℕ} {built : Subgraph O S TOuter TInner}
    (h : builder.build iteration eager fuel = some built) (hbuilder : OperatorsAre P builder.children) :
    OperatorsAre P built.children ∧ built.ghost_wrapper = builder.ghost_wrapper := by
  obtain ⟨reorganized, -, h⟩ := Option.bind_eq_some_iff.mp h
  obtain ⟨⟨children, topology⟩, hassembled, h⟩ := Option.bind_eq_some_iff.mp h
  obtain ⟨allocated, -, h⟩ := Option.bind_eq_some_iff.mp h
  split at h
  case isFalse => cases h
  case isTrue =>
    cases h
    refine ⟨?_, rfl⟩
    obtain ⟨sorted, _, _, connected, hperm, -, -, -, hconnected, hpushed⟩ :=
      SubgraphBuilder.assemble_cases hassembled
    have hsorted : OperatorsAre P sorted := fun child hchild => hbuilder child (hperm.mem_iff.mp hchild)
    have hfirst : OperatorsAre P connected := by
      refine foldlM_invariant (P := OperatorsAre P) (hsorted.set 0 ?_) ?_ hconnected
      · intro operator hoperator
        cases hoperator
      · intro before edge after _ hbefore hpush
        unfold SubgraphBuilder.push_edge at hpush
        split at hpush
        case h_1 => cases hpush
        case h_2 child hchild =>
          obtain ⟨ports, -, rfl⟩ := Option.map_eq_some_iff.mp hpush
          exact hbefore.set _ (hbefore child (List.mem_of_getElem? hchild))
    refine foldlM_invariant (P := fun state : List (PerOperatorState O S TInner) × Builder S =>
      OperatorsAre P state.1) hfirst ?_ hpushed
    intro before edge after _ hbefore hpush
    unfold SubgraphBuilder.push_ghost_edge at hpush
    split at hpush
    case h_1 => cases hpush
    case h_2 child hchild =>
      obtain ⟨ports, -, hpush⟩ := Option.bind_eq_some_iff.mp hpush
      obtain ⟨extended, -, rfl⟩ := Option.map_eq_some_iff.mp hpush
      exact hbefore.set _ (hbefore child (List.mem_of_getElem? hchild))

theorem OperatorsAre.lodged {subgraph : Subgraph O S TOuter TInner}
    (h : OperatorsAre P subgraph.children) {index : ℕ} {operator : O} {frontiers : List (ChangeBatch TInner)}
    (hlodged : subgraph.lodged index = some (operator, frontiers)) : P operator frontiers := by
  obtain ⟨child, hchild, hfound⟩ := Option.bind_eq_some_iff.mp hlodged
  obtain ⟨found, hoperator, heq⟩ := Option.map_eq_some_iff.mp hfound
  obtain ⟨rfl, rfl⟩ := Prod.mk.inj heq
  exact h child (List.mem_of_getElem? hchild) found hoperator

end Build

/-! ### Probes in a dataflow -/

namespace Cluster

variable {peers : ℕ} {O S TOuter T D : Type}
  [PartialOrder TOuter] [DecidableLE TOuter] [DecidableEq TOuter] [Ord TOuter]
  [LinearExtension TOuter]
  [PartialOrder T] [DecidableLE T] [DecidableEq T] [Ord T] [LinearExtension T] [Timestamp T]
  [Refines TOuter T] [PathSummary S T] [Operate O T] [PartialOrder S] [DecidableLE S]
  {topology : Builder S} {granted : Location × T →₀ ℤ}
  {builders : Fin peers → SubgraphBuilder (Probe T D ⊕ O) S TOuter T}
  {starts : Fin peers → Subgraph (Probe T D ⊕ O) S TOuter T}
  {situation : Situation peers (Probe T D ⊕ O) S TOuter T}

/-- The probes among the operators have just been built. -/
def FreshProbe (operator : Probe T D ⊕ O) (frontiers : List (ChangeBatch T)) : Prop :=
  ∀ probe, operator = Sum.inl probe → probe.Fresh frontiers

/-- At the start a probe has surfaced nothing, and waits for its first call. -/
theorem surfaced_start (hstarted : Started topology granted builders starts) {worker : Fin peers} {index : ℕ}
    (hfresh : OperatorsAre FreshProbe (builders worker).children)
    (hghost : (builders worker).ghost_wrapper.lookup index = none) :
    Surfaced (starts worker) index ∧ Late (starts worker) index := by
  obtain ⟨built, iteration, eager, fuel, summary_fuel, hbuild, -, hinit⟩ :=
    hstarted.initialized.builds worker
  obtain ⟨assembled, hbuilt⟩ := SubgraphBuilder.built_of_build hbuild
  obtain ⟨hoperators, hghosts⟩ := operatorsAre_of_build hbuild hfresh
  have hsurfaced : Surfaced built index := by
    refine ⟨Subgraph.Resting.of_run hbuild Run.nil, (congrArg _ hghosts).trans hghost,
      fun probe frontiers hlodged => ?_⟩
    have hnothing : built.first_frontier index = [] := by
      unfold Subgraph.first_frontier
      rw [hbuilt.allocated.fresh.implications]
      rfl
    rw [hnothing]
    exact (hoperators.lodged hlodged probe rfl).surfaces
  refine ⟨(Subgraph.run_of_get_internal_summary hinit).invariant (P := fun _ last => Surfaced last index)
    hsurfaced fun hbefore hstep => hbefore.step hstep, fun probe frontiers hlodged hcalled => ?_⟩
  -- initialization calls no operator
  obtain ⟨expressed, hexpressed, hpropagate⟩ := Option.bind_eq_some_iff.mp hinit
  obtain ⟨before, hbefore⟩ := Subgraph.Propagates.lodged ⟨summary_fuel, hpropagate⟩ hlodged
  have hkept : expressed.lodged index = built.lodged index := by
    refine foldlM_invariant (P := fun state : Subgraph (Probe T D ⊕ O) S TOuter T =>
      state.lodged index = built.lodged index) rfl ?_ hexpressed
    intro state other next _ hstate hexpress
    exact (Subgraph.lodged_express_child hexpress index).trans hstate
  rw [hkept] at hbefore
  rw [(hoperators.lodged hbefore probe rfl).not_started] at hcalled
  cases hcalled

/-- In every disciplined run a probe is late. -/
theorem late_of_run (hadvances : topology.Advances T) (hstarted : Started topology granted builders starts)
    {moves : List (Move peers TOuter T)}
    (hrun : Run (DisciplinedStep topology granted) (begin_with starts) moves situation) {worker : Fin peers}
    {index : ℕ} (hfresh : OperatorsAre FreshProbe (builders worker).children)
    (hghost : (builders worker).ghost_wrapper.lookup index = none) :
    Surfaced (situation.cluster.workers worker) index ∧ Late (situation.cluster.workers worker) index := by
  have hall : Run (DisciplinedStep topology granted) (begin_with starts) moves situation ∧
      Surfaced (situation.cluster.workers worker) index ∧ Late (situation.cluster.workers worker) index := by
    refine hrun.invariant (P := fun moves last =>
      Run (DisciplinedStep topology granted) (begin_with starts) moves last ∧
      Surfaced (last.cluster.workers worker) index ∧ Late (last.cluster.workers worker) index)
      ⟨Run.nil, surfaced_start hstarted hfresh hghost⟩ ?_
    rintro moves before move later ⟨hbefore, hsurfaced, hlate⟩ hmove
    refine ⟨hbefore.snoc hmove, ?_⟩
    have hadvance : ∀ time ∈ (later.cluster.workers worker).first_frontier index,
        ∃ least ∈ (before.cluster.workers worker).first_frontier index, least ≤ time := by
      intro time htime
      exact frontiers_advance hadvances hstarted hbefore (Run.nil.snoc hmove) worker htime
    cases hmove.1 with
    | perform performer node changes => exact ⟨hsurfaced, hlate⟩
    | event hstep =>
      rcases hstep.worker_cases worker with ⟨own, -, hscope⟩ | ⟨left, final, hworker⟩
      · exact ⟨hsurfaced.step hscope, hlate.step hsurfaced hscope hadvance⟩
      · dsimp only [Situation.follow]
        rw [hworker]
        exact ⟨⟨⟨hsurfaced.resting.quiet, hsurfaced.resting.pushed⟩, hsurfaced.no_ghost, hsurfaced.surfaces⟩,
          hlate⟩
  exact hall.2

/-- Once a probe has been called, its handles cover what could come to its input. -/
theorem less_equal_of_existing (hadvances : topology.Advances T)
    (hstarted : Started topology granted builders starts) {moves : List (Move peers TOuter T)}
    (hrun : Run (DisciplinedStep topology granted) (begin_with starts) moves situation) {worker : Fin peers}
    {index : ℕ} (hfresh : OperatorsAre FreshProbe (builders worker).children)
    (hghost : (builders worker).ghost_wrapper.lookup index = none) {probe : Probe T D}
    (hprobe : (situation.cluster.workers worker).operator_at index = some (Sum.inl probe))
    (hcalled : probe.started = true) {origin : Location × T} {time : T}
    (hexists : 0 < situation.existing granted origin)
    (hcould : topology.CouldResultIn origin (Location.new_target index 0, time)) :
    probe.less_equal time = true := by
  obtain ⟨seen, hreached⟩ := hstarted.reached hadvances hrun worker
  obtain ⟨least, hleast, hle⟩ := hreached.covers_existing hexists hcould
  obtain ⟨-, hlate⟩ := late_of_run hadvances hstarted hrun hfresh hghost
  obtain ⟨child, hchild, hoperator⟩ := Option.bind_eq_some_iff.mp hprobe
  have hlodged := Subgraph.lodged_of_child hchild hoperator
  exact Probe.less_equal_mono (hlate probe _ hlodged hcalled least hleast) hle

/-- What a handle reads is never early: in every disciplined run, once a probe has been called, its
    handles cover whatever an existing capability or message could result in at its input.  So no time that a
    handle has moved beyond can be seen there any more, and a probe that is done sees nothing. -/
theorem probe_never_early (hadvances : topology.Advances T)
    (hstarted : Started topology granted builders starts) {moves : List (Move peers TOuter T)}
    (hrun : Run (DisciplinedStep topology granted) (begin_with starts) moves situation) {worker : Fin peers}
    {index : ℕ} (hfresh : OperatorsAre FreshProbe (builders worker).children)
    (hghost : (builders worker).ghost_wrapper.lookup index = none) {probe : Probe T D}
    (hprobe : (situation.cluster.workers worker).operator_at index = some (Sum.inl probe))
    (hcalled : probe.started = true) {origin : Location × T} {time : T}
    (hexists : 0 < situation.existing granted origin)
    (hcould : topology.CouldResultIn origin (Location.new_target index 0, time)) :
    probe.less_equal time = true ∧ (∀ later, time < later → probe.less_than later = true) ∧
      probe.done = false := by
  have hcovers :=
    less_equal_of_existing hadvances hstarted hrun hfresh hghost hprobe hcalled hexists hcould
  obtain ⟨read, hread, -⟩ := List.any_eq_true.mp hcovers
  exact ⟨hcovers, fun later hlater => Probe.less_than_of_less_equal hcovers hlater,
    List.isEmpty_eq_false_iff.mpr (List.ne_nil_of_mem hread)⟩

/-- In graphs without cycles that leave timestamps as they are: once all is reported, all batches have
    arrived, no worker must send, and nothing waits for a probe, its handles read exactly the earliest times that the existing
    capabilities and messages could result in at its input. -/
theorem probe_exact_when_silent (hadvances : topology.Advances T)
    (hacyclic : ∀ location, ¬ topology.Cyclic T location)
    (hstarted : Started topology granted builders starts) {moves : List (Move peers TOuter T)}
    (hrun : Run (DisciplinedStep topology granted) (begin_with starts) moves situation) (hsilent : Silent situation)
    {worker : Fin peers} {index : ℕ} (hfresh : OperatorsAre FreshProbe (builders worker).children)
    (hghost : (builders worker).ghost_wrapper.lookup index = none) {probe : Probe T D}
    {frontiers : List (ChangeBatch T)}
    (hprobe : (situation.cluster.workers worker).lodged index = some (Sum.inl probe, frontiers))
    (hread : (Subgraph.waiting frontiers 0).updates = []) :
    IsFrontier probe.frontier.frontier (fun time => ∃ origin, 0 < situation.existing granted origin ∧
      topology.CouldResultIn origin (Location.new_target index 0, time)) := by
  have hreached := fun other => hstarted.reached hadvances hrun other
  obtain ⟨seen, hworker⟩ := hreached worker
  obtain ⟨hsettled, hbalance⟩ := (late_of_run hadvances hstarted hrun hfresh hghost).1.surfaces probe _ hprobe
  have hcounts : ∀ time, probe.frontier.count_for time =
      if time ∈ (situation.cluster.workers worker).first_frontier index then 1 else 0 := by
    intro time
    have hsum := hbalance time
    unfold ChangeBatch.value at hsum
    rwa [hread, tally_nil, add_zero] at hsum
  refine ⟨fun time htime => ?_, hsettled.frontier.incomparable, ?_⟩
  · have hpos := hsettled.frontier.present_of_mem time htime
    have hlisted : time ∈ (situation.cluster.workers worker).first_frontier index := by
      by_contra hnone
      rw [hcounts, if_neg hnone] at hpos
      exact lt_irrefl 0 hpos
    exact hsilent.exists_listed hacyclic hreached worker hlisted
  · rintro time ⟨origin, hexists, hcould⟩
    obtain ⟨least, hleast, hle⟩ := hworker.covers_existing hexists hcould
    have hlisted : least ∈ (situation.cluster.workers worker).first_frontier index := hleast
    have hpos : 0 < probe.frontier.count_for least := by
      rw [hcounts, if_pos hlisted]
      exact one_pos
    obtain ⟨read, hread, hearly⟩ := hsettled.frontier.covers least hpos
    exact ⟨read, hread, hearly.trans hle⟩

/-! ### An example -/

abbrev ProbedOperator := Probe (Unsigned 64) ℕ ⊕ Script (Unsigned 64)

abbrev ProbedBuilder := SubgraphBuilder ProbedOperator (Unsigned 64) (Unsigned 64) (Unsigned 64)

abbrev ProbedScope := Subgraph ProbedOperator (Unsigned 64) (Unsigned 64) (Unsigned 64)

/-- A child whose outputs have a capability at each of two workers. -/
def probed_child (index inputs outputs : ℕ) (internal_summary : List (List (Antichain (Unsigned 64))))
    (operator : ProbedOperator) : PerOperatorState ProbedOperator (Unsigned 64) (Unsigned 64) where
  index := index
  is_local := true
  notify := true
  inputs := inputs
  outputs := outputs
  count_for_incomplete := true
  operator := some operator
  edges := List.replicate outputs []
  ghost_edges := List.replicate outputs []
  shared_progress :=
    { SharedProgress.new inputs outputs with
      internals := List.replicate outputs (ChangeBatch.new.append [(0, 2)]) }
  internal_summary := internal_summary

def idle_script (index : ℕ) : PerOperatorState ProbedOperator (Unsigned 64) (Unsigned 64) :=
  probed_child index 0 0 [] (Sum.inr ⟨[]⟩)

/-- A probe that has just been built. -/
def new_probe : Probe (Unsigned 64) ℕ :=
  ⟨MutableAntichain.new, false, PullCounter.new, Buffer.new Counter.new, fun _ => []⟩

/-- A source that a probe is attached to; at worker zero the source sends a message. -/
def probed_builders (worker : Fin 2) : ProbedBuilder :=
  (((((((SubgraphBuilder.new_from 1).add_child (probed_child 1 0 1 []
      (Sum.inr ⟨if worker.val = 0 then [⟨[], [[]], [[(1, 1)]]⟩] else []⟩))).add_child
    (probed_child 2 1 1 [[Antichain.from_elem 0]] (Sum.inl new_probe))).add_child
    (idle_script 3)).add_child (idle_script 4)).add_child (idle_script 5)).add_child
    (idle_script 6)).connect ⟨1, 0⟩ ⟨2, 0⟩

def probed_build (worker : Fin 2) : Option ProbedScope :=
  (probed_builders worker).build IterationOrder.listed false 20

theorem probed_builds : ∀ worker, (probed_build worker).isSome := by decide

def probed_built (worker : Fin 2) : ProbedScope := (probed_build worker).get (probed_builds worker)

theorem probed_initializes : ∀ worker, ((probed_built worker).get_internal_summary 20).isSome := by
  decide

def probed_starts (worker : Fin 2) : ProbedScope :=
  ((probed_built worker).get_internal_summary 20).get (probed_initializes worker)

def probed_topology : Builder (Unsigned 64) := (probed_starts ⟨0, Nat.zero_lt_two⟩).pointstamp_tracker.builder

/-- One capability for the source, and one for the probe. -/
def probed_granted : List ((Location × Unsigned 64) × ℤ) :=
  [((Location.new_source 1 0, 0), 1), ((Location.new_source 2 0, 0), 1)]

theorem probed_started : Started probed_topology (collect probed_granted) probed_builders probed_starts := by
  refine Started.of_expressed (fun worker => (Option.some_get (probed_builds worker)).symm) ?_
    (fun worker => (Option.some_get (probed_initializes worker)).symm) (by decide) (by decide)
    (Fin.forall_fin_two.mpr ⟨rfl, rfl⟩) (by decide) (by decide)
  decide

/-- The source sends its message, and both probes are called. -/
def probed_events : List (Event 2 (Unsigned 64) (Unsigned 64)) :=
  [.scope ⟨0, Nat.zero_lt_two⟩ (.activate_child 1), .scope ⟨0, Nat.zero_lt_two⟩ (.activate_child 2),
    .scope ⟨1, Nat.one_lt_two⟩ (.activate_child 2)]

theorem probed_performs : ((probed_events.map Move.event).foldlM
    (perform_disciplined 20 probed_topology probed_granted) (begin_with probed_starts)).isSome := by
  decide

def probed_last : Situation 2 ProbedOperator (Unsigned 64) (Unsigned 64) (Unsigned 64) :=
  ((probed_events.map Move.event).foldlM (perform_disciplined 20 probed_topology probed_granted)
    (begin_with probed_starts)).get probed_performs

theorem probed_run : Run (DisciplinedStep probed_topology (collect probed_granted)) (begin_with probed_starts)
    (probed_events.map Move.event) probed_last :=
  run_of_perform_disciplined probed_started.initialized (Option.some_get probed_performs).symm

theorem probed_fresh (worker : Fin 2) : OperatorsAre FreshProbe (probed_builders worker).children := by
  have hscript : ∀ (child : PerOperatorState ProbedOperator (Unsigned 64) (Unsigned 64)),
      child.operator.bind Sum.getLeft? = none → ∀ operator, child.operator = some operator →
        FreshProbe operator child.shared_progress.frontiers := by
    rintro child hnone operator hoperator probe rfl
    rw [hoperator] at hnone
    cases hnone
  have hprobe : ∀ operator, (probed_child 2 1 1 [[Antichain.from_elem 0]] (Sum.inl new_probe)).operator =
      some operator → FreshProbe operator [ChangeBatch.new] := by
    rintro operator hoperator probe rfl
    cases hoperator
    exact ⟨rfl, rfl, fun _ => rfl⟩
  exact List.forall_mem_cons.mpr ⟨hscript _ rfl, List.forall_mem_cons.mpr ⟨hscript _ rfl,
    List.forall_mem_cons.mpr ⟨hprobe, List.forall_mem_cons.mpr ⟨hscript _ rfl,
      List.forall_mem_cons.mpr ⟨hscript _ rfl, List.forall_mem_cons.mpr ⟨hscript _ rfl,
        List.forall_mem_singleton.mpr (hscript _ rfl)⟩⟩⟩⟩⟩⟩

theorem probed_reads : ((probed_last.cluster.workers ⟨1, Nat.one_lt_two⟩).operator_at 2).bind (fun operator =>
    operator.getLeft?.map Probe.started) = some true := by decide

/-- The probe of worker one, which has not heard of the message. -/
theorem probe_never_early_example : ∃ probe : Probe (Unsigned 64) ℕ,
    (probed_last.cluster.workers ⟨1, Nat.one_lt_two⟩).operator_at 2 = some (Sum.inl probe) ∧
    0 < probed_last.existing (collect probed_granted) (Location.new_target 2 0, 1) ∧
    (probed_last.cluster.workers ⟨1, Nat.one_lt_two⟩).count (Location.new_target 2 0, 1) = 0 ∧
    probe.less_equal 1 = true := by
  obtain ⟨operator, hoperator, hleft⟩ := Option.bind_eq_some_iff.mp probed_reads
  obtain ⟨probe, hprobe, hcalled⟩ := Option.map_eq_some_iff.mp hleft
  rw [Sum.getLeft?_eq_some_iff] at hprobe
  subst hprobe
  have hexists : 0 < probed_last.existing (collect probed_granted) (Location.new_target 2 0, 1) := by
    decide
  exact ⟨probe, hoperator, hexists, by decide, (probe_never_early probed_topology.advances probed_started
    probed_run (probed_fresh _) (by decide) hoperator hcalled hexists (Builder.CouldResultIn.refl _ _)).1⟩

theorem probed_is_acyclic : probed_topology.is_acyclic IterationOrder.listed = some true := by decide

theorem probed_lodged : ((probed_last.cluster.workers ⟨1, Nat.one_lt_two⟩).lodged 2).bind (fun lodged =>
    lodged.1.getLeft?.map fun probe => ((Subgraph.waiting lodged.2 0).updates, probe.frontier.frontier)) =
      some ([], [0]) := by decide

theorem probe_exact_when_silent_example :
    IsFrontier [0] (fun time => ∃ origin, 0 < probed_last.existing (collect probed_granted) origin ∧
      probed_topology.CouldResultIn origin (Location.new_target 2 0, time)) := by
  have hsilent : Silent probed_last := ⟨by decide, by decide, by decide, by decide⟩
  obtain ⟨rank, bound, hranked⟩ := Builder.ranked_of_is_acyclic probed_is_acyclic
  obtain ⟨⟨operator, frontiers⟩, hlodged, hleft⟩ := Option.bind_eq_some_iff.mp probed_lodged
  obtain ⟨probe, hprobe, heq⟩ := Option.map_eq_some_iff.mp hleft
  obtain ⟨hread, hfrontier⟩ := Prod.mk.inj heq
  rw [Sum.getLeft?_eq_some_iff] at hprobe
  subst hprobe
  rw [← hfrontier]
  exact probe_exact_when_silent probed_topology.advances hranked.not_cyclic probed_started probed_run hsilent
    (probed_fresh _) (by decide) hlodged hread

end Cluster

end Timely
