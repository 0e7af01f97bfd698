/-
  Timely/Nested.lean
  ==================
  **Scopes in scopes** (`timely/src/progress/subgraph.rs`, `impl Operate for
  Subgraph`).

  A subgraph is an operator of the scope around it.  `schedule` takes the frontier
  changes of the parent before it propagates and runs the children;
  `set_external_summary` propagates without taking them, and then runs the
  children.  What other workers send, which children are activated, and what has
  entered the scope comes from its surroundings and is arbitrary.
-/
import Timely.ShutDown
import Timely.Schedule
import Timely.WrapperWakes

set_option linter.unusedSectionVars false

namespace Timely

open Library

/-! ### Operators of two kinds -/

instance {A B T : Type} [Ord T] [Operate A T] [Operate B T] : Operate (A ⊕ B) T where
  schedule
    | .inl operator, shared => (Operate.schedule operator shared).map fun outcome =>
      (outcome.1, Sum.inl outcome.2.1, outcome.2.2)
    | .inr operator, shared => (Operate.schedule operator shared).map fun outcome =>
      (outcome.1, Sum.inr outcome.2.1, outcome.2.2)
  set_external_summary
    | .inl operator, shared => (Operate.set_external_summary operator shared).map fun outcome =>
      (Sum.inl outcome.1, outcome.2)
    | .inr operator, shared => (Operate.set_external_summary operator shared).map fun outcome =>
      (Sum.inr outcome.1, outcome.2)

namespace Subgraph

variable {O S TOuter TInner : Type}
  [PartialOrder TOuter] [DecidableLE TOuter] [DecidableEq TOuter] [Ord TOuter]
  [LinearExtension TOuter]
  [PartialOrder TInner] [DecidableLE TInner] [DecidableEq TInner] [Ord TInner]
  [LinearExtension TInner] [Refines TOuter TInner]

/-! ### Up to the children -/

section Prepare

variable [PathSummary S TInner]

/-- What `schedule` does before it runs children. -/
def prepare (fuel : ℕ) (received : List ((Location × TInner) × ℤ))
    (subgraph : Subgraph O S TOuter TInner) : Option (Subgraph O S TOuter TInner) :=
  subgraph.accept_frontier.harvest_inputs.bind fun harvested =>
    (harvested.receive received).propagate_pointstamps fuel

/-- A call of `schedule` prepares, runs the children, and sends. -/
theorem schedule_cases [Operate O TInner] {fuel : ℕ} {received : List ((Location × TInner) × ℤ)}
    {extensions : List ℕ} {subgraph : Subgraph O S TOuter TInner}
    {scheduled : Scheduled O S TOuter TInner}
    (h : subgraph.schedule fuel received extensions = some scheduled) :
    ∃ propagated activated sent, subgraph.prepare fuel received = some propagated ∧
      activate_children 0 (propagated.enqueue extensions) = some activated ∧
      activated.send_progress = some sent ∧
      scheduled.subgraph = { sent.2 with final_pointstamp := sent.2.final_pointstamp.is_empty.2 } := by
  obtain ⟨harvested, hharvested, h⟩ := Option.bind_eq_some_iff.mp h
  obtain ⟨propagated, hpropagated, h⟩ := Option.bind_eq_some_iff.mp h
  obtain ⟨activated, hactivated, h⟩ := Option.bind_eq_some_iff.mp h
  obtain ⟨sent, hsent, rfl⟩ := Option.map_eq_some_iff.mp h
  exact ⟨propagated, activated, sent, Option.bind_eq_some_iff.mpr ⟨harvested, hharvested, hpropagated⟩,
    hactivated, hsent, rfl⟩

end Prepare

/-- The frontier changes that wait for an input of a child; those of a ghost wait with its wrapper. -/
def pending (subgraph : Subgraph O S TOuter TInner) (node port : ℕ) (time : TInner) : ℤ :=
  match subgraph.ghost_wrapper.lookup node with
  | none => (subgraph.input_frontier node port).value time
  | some wrapper => (subgraph.wrapper_frontier wrapper node port).value time

/-- The operator of a child that has not been shut down. -/
def operator_at (subgraph : Subgraph O S TOuter TInner) (index : ℕ) : Option O :=
  (subgraph.children[index]?).bind PerOperatorState.operator

/-! ### What a scope has taken from its parent -/

/-- The pointstamps at an input of the scope that its tracker counts or will count. -/
def stamped (subgraph : Subgraph O S TOuter TInner) (port : ℕ) (time : TInner) : ℤ :=
  subgraph.count (Location.new_source 0 port, time) +
    subgraph.pointstamp_tracker.buffered (Location.new_source 0 port) time

/-- The changes that wait for an input. -/
def waiting {T : Type} [Ord T] (frontiers : List (ChangeBatch T)) (port : ℕ) : ChangeBatch T :=
  (frontiers[port]?).getD ChangeBatch.new

/-- The weight that counts the outer times with one inner time. -/
def enters_as (time : TInner) (outer : TOuter) : ℤ :=
  if Refines.to_inner outer = time then 1 else 0

/-- Of the updates of numbered batches those of one batch count. -/
theorem sum_numbered {α β : Type} (updates : α → List β) (weight : β → ℤ) (batches : List α)
    (start index : ℕ) :
    (((batches.zipIdx start).flatMap fun batch => (updates batch.1).map fun update =>
      (batch.2, update)).map fun entry => if entry.1 = start + index then weight entry.2 else 0).sum =
      ((batches[index]?).map fun batch => ((updates batch).map weight).sum).getD 0 := by
  induction batches generalizing start index with
  | nil => rfl
  | cons head batches ih =>
    rw [List.zipIdx_cons, List.flatMap_cons, List.map_append, List.sum_append, List.map_map]
    cases index with
    | zero =>
      have hrest : (((batches.zipIdx (start + 1)).flatMap fun batch => (updates batch.1).map fun update =>
          (batch.2, update)).map fun entry => if entry.1 = start + 0 then weight entry.2 else 0).sum = 0 := by
        apply List.sum_eq_zero
        intro value hvalue
        obtain ⟨entry, hentry, rfl⟩ := List.mem_map.mp hvalue
        obtain ⟨batch, hbatch, hmem⟩ := List.mem_flatMap.mp hentry
        obtain ⟨update, _, rfl⟩ := List.mem_map.mp hmem
        have hle := List.le_snd_of_mem_zipIdx hbatch
        exact if_neg (by omega)
      rw [hrest, add_zero, List.getElem?_cons_zero, Option.map_some, Option.getD_some]
      congr 2
      funext update
      exact if_pos rfl
    | succ index =>
      have hhead : (((updates head).map ((fun entry : ℕ × β =>
          if entry.1 = start + (index + 1) then weight entry.2 else 0) ∘ fun update =>
          (start, update)))).sum = 0 := by
        apply List.sum_eq_zero
        intro value hvalue
        obtain ⟨update, _, rfl⟩ := List.mem_map.mp hvalue
        have hne : start ≠ start + (index + 1) := by omega
        exact if_neg hne
      have hshift : start + (index + 1) = start + 1 + index := by omega
      rw [hhead, zero_add, hshift, ih, List.getElem?_cons_succ]

/-- Accepted changes are buffered as pointstamps at the inputs of the scope. -/
theorem buffered_accept_source (changes : List (ℕ × (TOuter × ℤ))) (tracker : Tracker S TInner)
    (port : ℕ) (time : TInner) :
    (changes.foldl (fun tracker change => tracker.update_source ⟨0, change.1⟩
      (Refines.to_inner change.2.1) change.2.2) tracker).buffered (Location.new_source 0 port) time =
        tracker.buffered (Location.new_source 0 port) time +
          (changes.map fun change =>
            if change.1 = port then change.2.2 * enters_as time change.2.1 else 0).sum := by
  induction changes generalizing tracker with
  | nil => simp
  | cons change changes ih =>
    rw [List.foldl_cons, ih, Tracker.buffered_update_source, List.map_cons, List.sum_cons, add_assoc]
    congr 2
    unfold enters_as
    by_cases hport : change.1 = port
    · subst hport
      simp [Location.new_source, Location.from_source]
    · simp [Location.new_source, Location.from_source, hport]

theorem stamped_accept_frontier [PathSummary S TInner] (subgraph : Subgraph O S TOuter TInner)
    (port : ℕ) (time : TInner) :
    subgraph.accept_frontier.stamped port time = subgraph.stamped port time +
      weigh (waiting subgraph.shared_progress.frontiers port).updates (enters_as time) := by
  have hcount : subgraph.accept_frontier.count (Location.new_source 0 port, time) =
      subgraph.count (Location.new_source 0 port, time) :=
    SameCounts.count (kept_accept_frontier subgraph).same _
  unfold stamped
  rw [hcount, add_assoc]
  congr 1
  refine (buffered_accept_source _ _ port time).trans ?_
  congr 1
  have hsum := sum_numbered (fun batch : ChangeBatch TOuter => batch.drain.1)
    (fun change : TOuter × ℤ => change.2 * enters_as time change.1) subgraph.shared_progress.frontiers 0 port
  rw [zero_add] at hsum
  rw [hsum]
  unfold waiting
  cases subgraph.shared_progress.frontiers[port]? with
  | none => rfl
  | some batch => exact weigh_congr (fun key => ChangeBatch.tally_compact batch key) (enters_as time)

variable [PathSummary S TInner]

/-- The count that a pointstamp will have when the scope propagates.  What is said about child zero goes
    to the parent. -/
def settling (subgraph : Subgraph O S TOuter TInner) (key : Location × TInner) : ℤ :=
  subgraph.count key + (subgraph.pointstamp_tracker.buffered key.1 key.2 +
    if key.1.node = 0 then 0 else subgraph.final_pointstamp.value key)

theorem Resting.settling {subgraph after : Subgraph O S TOuter TInner} (h : subgraph.Resting)
    (hpropagates : subgraph.Propagates after) (key : Location × TInner) :
    after.count key = subgraph.settling key := by
  obtain ⟨committed, propagated, delivered, hstages⟩ := hpropagates.stages
  rw [hstages.count h.quiet, (committed_of_commit_pointstamps hstages.commit).buffered]
  unfold Subgraph.settling
  rw [← ChangeBatch.value_compact]
  rfl

theorem settling_source (subgraph : Subgraph O S TOuter TInner) (port : ℕ) (time : TInner) :
    subgraph.settling (Location.new_source 0 port, time) = subgraph.stamped port time := by
  have hnode : (Location.new_source 0 port, time).1.node = 0 := rfl
  rw [settling, if_pos hnode, add_zero]
  rfl

/-- Propagating counts what has been taken. -/
theorem Resting.stamped {subgraph after : Subgraph O S TOuter TInner} (h : subgraph.Resting)
    (hpropagates : subgraph.Propagates after) (port : ℕ) (time : TInner) :
    after.count (Location.new_source 0 port, time) = subgraph.stamped port time ∧
      after.stamped port time = subgraph.stamped port time := by
  obtain ⟨committed, propagated, delivered, hstages⟩ := hpropagates.stages
  have hcount := h.settling hpropagates (Location.new_source 0 port, time)
  rw [settling_source] at hcount
  refine ⟨hcount, ?_⟩
  rw [Subgraph.stamped, hcount, hstages.buffered, (hstages.counted h.quiet).buffered, add_zero]

theorem Resting.builder {subgraph after : Subgraph O S TOuter TInner} (h : subgraph.Resting)
    (hpropagates : subgraph.Propagates after) :
    after.pointstamp_tracker.builder = subgraph.pointstamp_tracker.builder := by
  obtain ⟨committed, propagated, delivered, hstages⟩ := hpropagates.stages
  rw [hstages.same.builder, (hstages.counted h.quiet).builder]
  exact (committed_of_commit_pointstamps hstages.commit).same.builder

theorem Propagates.frontiers {subgraph after : Subgraph O S TOuter TInner}
    (h : subgraph.Propagates after) :
    after.shared_progress.frontiers = subgraph.shared_progress.frontiers := by
  obtain ⟨committed, propagated, delivered, hstages⟩ := h.stages
  rw [(reported_of_report_outputs hstages.report).frontiers,
    (delivered_of_deliver_changes hstages.deliver).shared, hstages.propagated_eq]
  exact (committed_of_commit_pointstamps hstages.commit).frontiers

section Children

variable [Operate O TInner]

/-- Running the active children leaves the tracker and the progress shared with the parent alone. -/
theorem untracked_of_activate_children {previous : ℕ} {subgraph after : Subgraph O S TOuter TInner}
    (h : activate_children previous subgraph = some after) :
    after.pointstamp_tracker = subgraph.pointstamp_tracker ∧
      after.shared_progress = subgraph.shared_progress := by
  fun_induction activate_children previous subgraph with
  | case1 previous subgraph hactive =>
    cases h
    exact ⟨rfl, rfl⟩
  | case2 previous subgraph index rest hactive hnew hactivate => cases h
  | case3 previous subgraph index rest hactive hnew flag middle hactivate ih =>
    obtain ⟨htracker, hshared⟩ := ih h
    have huntracked := untracked_of_activate_child hactivate
    exact ⟨htracker.trans huntracked.tracker, hshared.trans huntracked.shared⟩
  | case4 previous subgraph index rest hactive hold ih => exact ih h

theorem untracked_of_set_children {indices : List ℕ} {subgraph after : Subgraph O S TOuter TInner}
    (h : indices.foldlM set_child_external_summary subgraph = some after) :
    after.pointstamp_tracker = subgraph.pointstamp_tracker ∧
      after.shared_progress = subgraph.shared_progress := by
  refine foldlM_invariant (P := fun middle : Subgraph O S TOuter TInner =>
    middle.pointstamp_tracker = subgraph.pointstamp_tracker ∧
      middle.shared_progress = subgraph.shared_progress) ⟨rfl, rfl⟩ ?_ h
  intro before index middle _ hbefore hset
  obtain ⟨child, changed, -, -, rfl⟩ := modify_child_cases hset
  exact hbefore

end Children

theorem stamped_congr {subgraph after : Subgraph O S TOuter TInner}
    (h : after.pointstamp_tracker = subgraph.pointstamp_tracker) : after.stamped = subgraph.stamped := by
  funext port time
  unfold stamped count
  rw [h]

/-- Preparing accepts what the parent has handed, and propagates. -/
theorem prepare_cases {fuel : ℕ} {received : List ((Location × TInner) × ℤ)}
    {subgraph propagated : Subgraph O S TOuter TInner} (h : subgraph.prepare fuel received = some propagated) :
    ∃ before, before.pointstamp_tracker = subgraph.accept_frontier.pointstamp_tracker ∧
      before.shared_progress = subgraph.accept_frontier.shared_progress ∧
      SameChildren subgraph before ∧ before.Propagates propagated := by
  obtain ⟨harvested, hharvested, hpropagate⟩ := Option.bind_eq_some_iff.mp h
  obtain ⟨pointstamps, hharvest⟩ := harvest_inputs_cases hharvested
  refine ⟨harvested.receive received, ?_, ?_, ?_, fuel, hpropagate⟩
  · rw [hharvest]
    rfl
  · rw [hharvest]
    rfl
  · rw [hharvest]
    exact ⟨⟨rfl, rfl, rfl, rfl, rfl, rfl⟩, rfl, rfl⟩

/-- Nothing waits among drained changes. -/
theorem weigh_waiting_drained {T : Type} [PartialOrder T] [DecidableLE T] [DecidableEq T] [Ord T]
    [LinearExtension T] (frontiers : List (ChangeBatch T)) (port : ℕ) (weight : T → ℤ) :
    weigh (waiting (drained frontiers) port).updates weight = 0 := by
  unfold waiting drained
  rw [List.getElem?_map]
  cases frontiers[port]? with
  | none => rfl
  | some batch => rfl

/-- What a child shares of the frontiers at its inputs, and at those of its ghosts. -/
def told_frontiers (child : PerOperatorState O S TInner) :
    List (ChangeBatch TInner) × AList fun _ : ℕ => List (ChangeBatch TInner) :=
  (child.shared_progress.frontiers, child.shared_progress.wrapper_frontiers)

theorem pending_congr {subgraph after : Subgraph O S TOuter TInner}
    (hchildren : after.children.map told_frontiers = subgraph.children.map told_frontiers)
    (hghosts : after.ghost_wrapper = subgraph.ghost_wrapper) : after.pending = subgraph.pending := by
  have hinput : ∀ state : Subgraph O S TOuter TInner, state.input_frontier = fun index port =>
      (((state.children.map told_frontiers)[index]?).bind fun told => told.1[port]?).getD
        ChangeBatch.new := by
    intro state
    funext index port
    rw [List.getElem?_map, Option.bind_map]
    rfl
  have hwrapper : ∀ state : Subgraph O S TOuter TInner, state.wrapper_frontier = fun wrapper ghost port =>
      (((state.children.map told_frontiers)[wrapper]?).bind fun told =>
        (told.2.lookup ghost).bind fun frontiers => frontiers[port]?).getD ChangeBatch.new := by
    intro state
    funext wrapper ghost port
    rw [List.getElem?_map, Option.bind_map]
    rfl
  funext node port time
  unfold pending
  rw [hghosts, hinput, hinput, hwrapper, hwrapper, hchildren]

theorem SameChildren.pending {subgraph after : Subgraph O S TOuter TInner}
    (h : SameChildren subgraph after) : after.pending = subgraph.pending :=
  pending_congr (congrArg _ h.children) h.framed.ghost_wrapper

theorem pending_express_child {subgraph after : Subgraph O S TOuter TInner} {index : ℕ}
    (h : subgraph.express_child index = some after) : after.pending = subgraph.pending := by
  unfold express_child at h
  split at h
  case h_1 => cases h
  case h_2 child hchild =>
    split at h
    · cases h
      rfl
    · obtain ⟨extracted, hextracted, rfl⟩ := Option.map_eq_some_iff.mp h
      obtain ⟨-, hfrontiers, hwrapper⟩ := extract_progress_cases hextracted
      refine pending_congr (map_set_of_eq hchild ?_) rfl
      unfold told_frontiers
      rw [hfrontiers, hwrapper]

/-- What is delivered waits for the inputs it is for, also at ghosts. -/
theorem Delivery.pending {subgraph after : Subgraph O S TOuter TInner} {tracker : Tracker S TInner}
    {changes : List ((Location × TInner) × ℤ)} (h : Delivery subgraph after tracker changes)
    (node port : ℕ) (time : TInner) :
    after.pending node port time = subgraph.pending node port time +
      subgraph.frontier_change after.pointstamp_tracker (Location.new_target node port) time := by
  obtain ⟨flag, hdelivered⟩ := h.delivered
  rw [frontier_change_congr h.same, ← h.change]
  unfold Subgraph.pending
  rw [hdelivered.framed.ghost_wrapper]
  cases hlookup : subgraph.ghost_wrapper.lookup node with
  | none =>
    refine (hdelivered.frontier node port time).trans ?_
    rw [if_pos hlookup]
  | some wrapper =>
    refine (hdelivered.wrapper wrapper node port time).trans ?_
    rw [if_pos hlookup]

end Subgraph

/-! ### Nested scopes -/

/-- What a scope finds when it is called. -/
structure Surroundings (T : Type) [Ord T] where
  fuel : ℕ
  entered : List (ChangeBatch T)
  received : List ((Location × T) × ℤ)
  extensions : List ℕ

/-- A scope inside another one, with what it finds in the calls to come, and the frontier changes that
    have been handed to the inputs of its children. -/
structure Nested (O S TOuter TInner : Type) [Ord TOuter] [Ord TInner] where
  subgraph : Subgraph O S TOuter TInner
  calls : ℕ → Surroundings TInner
  handed : ℕ → ℕ → TInner → ℤ

namespace Nested

variable {O S TOuter TInner : Type}
  [PartialOrder TOuter] [DecidableLE TOuter] [DecidableEq TOuter] [Ord TOuter]
  [LinearExtension TOuter]
  [PartialOrder TInner] [DecidableLE TInner] [DecidableEq TInner] [Ord TInner]
  [LinearExtension TInner] [Refines TOuter TInner] [PathSummary S TInner]

/-- The scope as a call finds it. -/
def called (nested : Nested O S TOuter TInner) (shared : SharedProgress TOuter) :
    Subgraph O S TOuter TInner :=
  { nested.subgraph with shared_progress := shared, input_messages := (nested.calls 0).entered }

/-- The scope when a call of `schedule` comes to its children. -/
def prepared (nested : Nested O S TOuter TInner) (shared : SharedProgress TOuter) :
    Option (Subgraph O S TOuter TInner) :=
  (nested.called shared).prepare (nested.calls 0).fuel (nested.calls 0).received

/-- The scope when a call of `set_external_summary` comes to its children. -/
def summarized (nested : Nested O S TOuter TInner) (shared : SharedProgress TOuter) :
    Option (Subgraph O S TOuter TInner) :=
  (nested.called shared).propagate_pointstamps (nested.calls 0).fuel

/-- The frontier changes handed to the inputs of the children, with those of the call that has come to
    its children. -/
def told (nested : Nested O S TOuter TInner) (propagated : Subgraph O S TOuter TInner) (node port : ℕ)
    (time : TInner) : ℤ :=
  nested.handed node port time +
    (propagated.pending node port time - nested.subgraph.pending node port time)

/-- The scope after a call. -/
def next (nested : Nested O S TOuter TInner) (propagated after : Subgraph O S TOuter TInner) :
    Nested O S TOuter TInner where
  subgraph := after
  calls count := nested.calls (count + 1)
  handed := nested.told propagated

/-- A scope is an operator of the scope around it. -/
instance [Operate O TInner] : Operate (Nested O S TOuter TInner) TOuter where
  schedule nested shared :=
    (nested.prepared shared).bind fun propagated =>
      ((nested.called shared).schedule (nested.calls 0).fuel (nested.calls 0).received
        (nested.calls 0).extensions).map fun scheduled =>
        (scheduled.unfinished, nested.next propagated scheduled.subgraph,
          scheduled.subgraph.shared_progress)
  set_external_summary nested shared :=
    (nested.summarized shared).bind fun propagated =>
      ((nested.called shared).set_external_summary (nested.calls 0).fuel).map fun after =>
        (nested.next propagated after, after.shared_progress)

/-- The two ways to run a child. -/
inductive Call where
  | schedule
  | set_external_summary

/-- A scope that has been built and initialized, with the progress it shares. -/
def Initialized [PartialOrder S] [DecidableLE S] (nested : Nested O S TOuter TInner)
    (shared : SharedProgress TOuter) : Prop :=
  ∃ (builder : SubgraphBuilder O S TOuter TInner) (iteration : IterationOrder ℕ) (eager : Bool)
    (fuel steps : ℕ) (built : Subgraph O S TOuter TInner),
    builder.build iteration eager fuel = some built ∧
    built.get_internal_summary steps = some nested.subgraph ∧
    (∀ node port time, nested.handed node port time =
      nested.subgraph.pending node port time - built.pending node port time) ∧
    shared = nested.subgraph.shared_progress

variable {nested nested' : Nested O S TOuter TInner} {shared shared' : SharedProgress TOuter}
  {propagated after : Subgraph O S TOuter TInner}

/-! ### What the children of a nested scope have been handed -/

/-- The frontier of an input is what the changes handed to it add up to. -/
def Lists (frontier : List TInner) (told : TInner → ℤ) : Prop :=
  ∀ time, told time = if time ∈ frontier then 1 else 0

/-- The tracker is at rest, and the changes handed to the inputs of the children add up to its
    implications frontiers. -/
structure InStep (nested : Nested O S TOuter TInner) : Prop where
  resting : nested.subgraph.Resting
  handed : ∀ node port, Lists
    (nested.subgraph.pointstamp_tracker.implications_at (Location.new_target node port)).frontier
    (nested.handed node port)

/-- What a call has done when it comes to the children. -/
structure Opened (nested : Nested O S TOuter TInner) (propagated : Subgraph O S TOuter TInner) :
    Prop where
  resting : propagated.Resting
  builder : propagated.pointstamp_tracker.builder = nested.subgraph.pointstamp_tracker.builder
  told : ∀ node port, Lists
    (propagated.pointstamp_tracker.implications_at (Location.new_target node port)).frontier
    (nested.told propagated node port)

theorem InStep.opened (h : nested.InStep) {before : Subgraph O S TOuter TInner}
    (hchildren : Subgraph.SameChildren nested.subgraph before)
    (hsame : Subgraph.SameCounts nested.subgraph.pointstamp_tracker before.pointstamp_tracker)
    (hpushed : before.pointstamp_tracker.pushed_changes =
      nested.subgraph.pointstamp_tracker.pushed_changes)
    (hpropagates : before.Propagates propagated) : nested.Opened propagated := by
  have hresting : before.Resting := ⟨hsame.quiet h.resting.quiet, hpushed.trans h.resting.pushed⟩
  obtain ⟨tracker, changes, hdelivery⟩ := hresting.delivery hpropagates
  refine ⟨hdelivery.resting, (hresting.builder hpropagates).trans hsame.builder,
    fun node port time => ?_⟩
  have hhanded := h.handed node port time
  rw [told, hdelivery.pending, hchildren.pending, hhanded, Subgraph.frontier_change, hsame.implications_at]
  ring

/-- A call that leaves the tracker alone from there on keeps the scope in step. -/
theorem Opened.inStep (h : nested.Opened propagated)
    (htracker : after.pointstamp_tracker = propagated.pointstamp_tracker) :
    (nested.next propagated after).InStep := by
  obtain ⟨⟨hquiet, hpushed⟩, -, htold⟩ := h
  rw [← htracker] at hquiet hpushed
  simp only [← htracker] at htold
  exact ⟨⟨hquiet, hpushed⟩, htold⟩

/-! ### What a call takes from the parent -/

theorem sameChildren_called (nested : Nested O S TOuter TInner) (shared : SharedProgress TOuter) :
    Subgraph.SameChildren nested.subgraph (nested.called shared) :=
  ⟨⟨rfl, rfl, rfl, rfl, rfl, rfl⟩, rfl, rfl⟩

/-- The pointstamps that a scope has taken from its parent, with those of the changes that wait. -/
def entitled (subgraph : Subgraph O S TOuter TInner) (frontiers : List (ChangeBatch TOuter)) (port : ℕ)
    (time : TInner) : ℤ :=
  subgraph.stamped port time + weigh (Subgraph.waiting frontiers port).updates (Subgraph.enters_as time)

/-- Preparing takes all that waits, and the tracker counts it. -/
theorem InStep.prepared (h : nested.InStep) (hprepared : nested.prepared shared = some propagated) :
    nested.Opened propagated ∧ ∀ port time,
      propagated.count (Location.new_source 0 port, time) =
        entitled nested.subgraph shared.frontiers port time ∧
      entitled propagated propagated.shared_progress.frontiers port time =
        entitled nested.subgraph shared.frontiers port time := by
  obtain ⟨before, htracker, hshared, hchildren, hpropagates⟩ := Subgraph.prepare_cases hprepared
  have hkept := Subgraph.kept_accept_frontier (nested.called shared)
  have hsame : Subgraph.SameCounts nested.subgraph.pointstamp_tracker before.pointstamp_tracker := by
    rw [htracker]
    exact hkept.same
  have hpushed : before.pointstamp_tracker.pushed_changes =
      nested.subgraph.pointstamp_tracker.pushed_changes := by
    rw [htracker]
    exact hkept.pushed
  have hresting : before.Resting := ⟨hsame.quiet h.resting.quiet, hpushed.trans h.resting.pushed⟩
  refine ⟨h.opened ((sameChildren_called nested shared).trans hchildren) hsame hpushed hpropagates, fun port time => ?_⟩
  obtain ⟨hcount, hstamped⟩ := hresting.stamped hpropagates port time
  have haccept : before.stamped port time = entitled nested.subgraph shared.frontiers port time := by
    rw [Subgraph.stamped_congr htracker]
    exact Subgraph.stamped_accept_frontier (nested.called shared) port time
  refine ⟨hcount.trans haccept, ?_⟩
  rw [entitled, hstamped, haccept, hpropagates.frontiers, hshared]
  exact (congrArg _ (Subgraph.weigh_waiting_drained _ _ _)).trans (add_zero _)

/-- Without preparing nothing is taken. -/
theorem InStep.summarized (h : nested.InStep) (hsummarized : nested.summarized shared = some propagated) :
    nested.Opened propagated ∧ (∀ key, propagated.count key = nested.subgraph.settling key) ∧
      ∀ port time, entitled propagated propagated.shared_progress.frontiers port time =
        entitled nested.subgraph shared.frontiers port time := by
  have hpropagates : (nested.called shared).Propagates propagated := ⟨_, hsummarized⟩
  have hresting : (nested.called shared).Resting := ⟨h.resting.quiet, h.resting.pushed⟩
  refine ⟨h.opened (sameChildren_called nested shared) ⟨rfl, rfl, rfl⟩ rfl hpropagates,
    hresting.settling hpropagates, fun port time => ?_⟩
  rw [entitled, (hresting.stamped hpropagates port time).2, hpropagates.frontiers]
  rfl

section Calls

variable [Operate O TInner]

/-- What a call does after it has propagated keeps the scope in step. -/
theorem Opened.next (h : nested.Opened propagated)
    (htracker : after.pointstamp_tracker = propagated.pointstamp_tracker)
    (hshared : after.shared_progress = propagated.shared_progress)
    (hentitled : ∀ port time, entitled propagated propagated.shared_progress.frontiers port time =
      entitled nested.subgraph shared.frontiers port time) :
    (nested.next propagated after).InStep ∧ ∀ port time,
      entitled (nested.next propagated after).subgraph after.shared_progress.frontiers port time =
        entitled nested.subgraph shared.frontiers port time := by
  refine ⟨h.inStep htracker, fun port time => ?_⟩
  rw [← hentitled, hshared]
  unfold entitled
  rw [← Subgraph.stamped_congr htracker]
  rfl

/-- A call keeps the scope in step, and neither loses nor adds a frontier change. -/
theorem InStep.schedule (h : nested.InStep) {flag : Bool}
    (hcall : Operate.schedule nested shared = some (flag, nested', shared')) :
    nested'.InStep ∧ ∀ port time, entitled nested'.subgraph shared'.frontiers port time =
      entitled nested.subgraph shared.frontiers port time := by
  obtain ⟨propagated, hprepared, hcall⟩ := Option.bind_eq_some_iff.mp hcall
  obtain ⟨scheduled, hscheduled, heq⟩ := Option.map_eq_some_iff.mp hcall
  cases heq
  obtain ⟨other, activated, sent, hother, hactivated, hsent, hafter⟩ := Subgraph.schedule_cases hscheduled
  obtain rfl : propagated = other := Option.some.inj (hprepared.symm.trans hother)
  obtain ⟨hopened, hentitled⟩ := h.prepared hprepared
  obtain ⟨htracker, hshared⟩ := Subgraph.untracked_of_activate_children hactivated
  obtain ⟨pointstamps, hsend⟩ := Subgraph.send_progress_cases hsent
  rw [hafter]
  refine hopened.next ?_ ?_ fun port time => (hentitled port time).2
  · rw [hsend]
    exact htracker
  · rw [hsend]
    exact hshared

theorem InStep.set_external_summary (h : nested.InStep)
    (hcall : Operate.set_external_summary nested shared = some (nested', shared')) :
    nested'.InStep ∧ ∀ port time, entitled nested'.subgraph shared'.frontiers port time =
      entitled nested.subgraph shared.frontiers port time := by
  obtain ⟨propagated, hsummarized, hcall⟩ := Option.bind_eq_some_iff.mp hcall
  obtain ⟨after, hafter, heq⟩ := Option.map_eq_some_iff.mp hcall
  cases heq
  obtain ⟨other, hother, hfold⟩ := Option.bind_eq_some_iff.mp hafter
  obtain rfl : propagated = other := Option.some.inj (hsummarized.symm.trans hother)
  obtain ⟨hopened, -, hentitled⟩ := h.summarized hsummarized
  obtain ⟨htracker, hshared⟩ := Subgraph.untracked_of_set_children hfold
  exact hopened.next htracker hshared hentitled

end Calls

/-! ### From construction on -/

/-- An initialized scope is in step, and has taken nothing. -/
theorem Initialized.inStep [PartialOrder S] [DecidableLE S] {nested : Nested O S TOuter TInner}
    {shared : SharedProgress TOuter} (h : nested.Initialized shared) :
    nested.InStep ∧ ∀ port time, entitled nested.subgraph shared.frontiers port time = 0 := by
  obtain ⟨builder, iteration, eager, fuel, steps, built, hbuild, hinitialize, hhanded, rfl⟩ := h
  obtain ⟨topology, hbuilt⟩ := SubgraphBuilder.built_of_build hbuild
  have hfresh := hbuilt.allocated.fresh
  obtain ⟨expressed, hexpressed, hpropagate⟩ := Option.bind_eq_some_iff.mp hinitialize
  obtain ⟨hrest, _, _, hshared, htracker⟩ := Subgraph.atRest_of_express hbuilt hexpressed
  have hpending : expressed.pending = built.pending :=
    foldlM_invariant (P := fun middle : Subgraph O S TOuter TInner => middle.pending = built.pending) rfl
      (fun _ hbefore hstep => (Subgraph.pending_express_child hstep).trans hbefore) hexpressed
  have hpropagates : expressed.Propagates nested.subgraph := ⟨steps, hpropagate⟩
  have hresting : expressed.Resting := ⟨hrest.quiet, hrest.pushed⟩
  obtain ⟨tracker, changes, hdelivery⟩ := hresting.delivery hpropagates
  refine ⟨⟨hdelivery.resting, fun node port time => ?_⟩, fun port time => ?_⟩
  · have hempty : (expressed.pointstamp_tracker.implications_at
        (Location.new_target node port)).frontier = [] := by
      rw [htracker, hfresh.implications]
      rfl
    rw [hhanded, hdelivery.pending, hpending, Subgraph.frontier_change, hempty]
    simp
  · obtain ⟨-, hstamped⟩ := hresting.stamped hpropagates port time
    have hnothing : expressed.stamped port time = 0 := by
      rw [Subgraph.stamped_congr htracker]
      unfold Subgraph.stamped Subgraph.count Tracker.buffered
      rw [hfresh.pointstamps, hfresh.sources]
      rfl
    rw [entitled, hstamped, hnothing, hpropagates.frontiers, hshared, hbuilt.shared]
    unfold Subgraph.waiting SharedProgress.new
    rw [List.getElem?_replicate]
    split <;> rfl

end Nested

end Timely
