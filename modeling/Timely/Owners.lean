/-
  Timely/Owners.lean
  ==================
  **The owners of handles act at any time** (`timely/src/dataflow/operators/input.rs`).

  Between the activations of the operators the owner of a handle sends records and
  advances its time.  What has been sent may be taken, and reported as consumed,
  before the operator of the handle is scheduled and reports that it has been produced.
  So what an owner does counts at once.  It is grounded in the capability of the
  handle: the workers keep their discipline whenever their owners call.
-/
import Timely.InputOperator
import Timely.GenericSafety

set_option linter.unusedSectionVars false

namespace Timely

open Library

/-- Probes, inputs, and operators of any logic. -/
abbrev AnyOperator (σ T D : Type) [Ord T] := Probe T D ⊕ (InputOperator T D ⊕ GenericOperator σ T D)

namespace AnyOperator

variable (σ S T D : Type) [PartialOrder T] [DecidableLE T] [DecidableEq T] [Ord T] [LinearExtension T]
  [Timestamp T] [PathSummary S T]

/-- They keep to the interface. -/
def interface : Interface (AnyOperator σ T D) S T :=
  (Probe.interface S T D).sum ((InputOperator.interface S T D).sum (GenericOperator.interface σ S T D))

end AnyOperator

/-! ### What an owner has done -/

section Handles

variable {S T D : Type} [PartialOrder T] [DecidableLE T] [DecidableEq T] [Ord T] [LinearExtension T]

/-- The calls of the owner before the operator is scheduled next. -/
def InputOperator.next_calls (operator : InputOperator T D) : List (InputCall T D) := operator.calls.headD []

/-- The handle of an input after the first calls of its owner since it was scheduled. -/
def InputOperator.called (operator : InputOperator T D) (made : ℕ) : Option (InputState T D) :=
  (operator.next_calls.take made).foldlM InputState.perform operator.state

/-- The pointstamp changes that the stream of a handle has counted and its operator has not reported. -/
def InputState.dues (state : InputState T D) (node : ℕ) (edges : List (List Target)) : ProgressVec T :=
  state.handle.pushers.flatMap fun registered =>
    scatter (fun time => [(Location.new_source node 0, time)]) registered.progress.updates ++
      scatter (fun time => (edges.getD 0 []).map fun target => (Location.from_target target, time))
        registered.pusher.produced.updates

/-- The changes that lead from one sum to another. -/
def differences (before after : ProgressVec T) : ProgressVec T :=
  after ++ before.map fun change => (change.1, -change.2)

theorem tally_differences (before after : ProgressVec T) (key : Location × T) :
    tally (differences before after) key = tally after key - tally before key := by
  have hnegated : tally (before.map fun change => (change.1, -change.2)) key = - tally before key := by
    induction before with
    | nil => rfl
    | cons change before ih =>
      rw [List.map_cons, tally_cons, tally_cons, ih, neg_add]
      split
      · rfl
      · rw [neg_zero]
  rw [differences, tally_append, hnegated, sub_eq_add_neg]

/-- Times that are sent to as many places each. -/
theorem tally_scatter_times (locations : List Location) (updates : List (T × ℤ)) (location : Location) (time : T) :
    tally (scatter (fun early => locations.map fun other => (other, early)) updates) (location, time) =
      (locations.count location : ℤ) * tally updates time := by
  have hcount : ∀ early, (locations.map fun other => (other, early)).count (location, time) =
      if early = time then locations.count location else 0 := by
    intro early
    induction locations with
    | nil => exact (ite_self 0).symm
    | cons other locations ih =>
      rw [List.map_cons, List.count_cons, List.count_cons, ih]
      by_cases hsame : early = time
      · subst hsame
        simp
      · simp [hsame]
  rw [tally_scatter]
  simp only [hcount]
  induction updates with
  | nil => exact (mul_zero _).symm
  | cons update updates ih =>
    rw [weigh_cons, ih, tally_cons, mul_add]
    split
    · rw [mul_comm]
    · rw [Nat.cast_zero, mul_zero, mul_zero]

/-- What is due is what the node is to state. -/
theorem InputState.tally_dues {state : InputState T D} {registered : Registered T D}
    (h : state.handle.pushers = [registered]) (node : ℕ) (edges : List (List Target)) (key : Location × T) :
    tally (state.dues node edges) key = statement node edges 0 (at_first registered.progress.value)
      (at_first registered.pusher.produced.value) key := by
  obtain ⟨location, time⟩ := key
  have hprogress := tally_scatter_times [Location.new_source node 0] registered.progress.updates location time
  have hproduced := tally_scatter_times ((edges.getD 0 []).map Location.from_target)
    registered.pusher.produced.updates location time
  simp only [List.map_map, Function.comp_def] at hproduced
  rw [InputState.dues, h, List.flatMap_singleton, tally_append]
  refine (congrArg₂ (· + ·) hprogress hproduced).trans ?_
  unfold statement
  refine congrArg₂ (· + ·) ?_ ?_
  · obtain ⟨other, port⟩ := location
    cases port with
    | target port => simp [Location.new_source]
    | source port =>
      by_cases hsource : other = node ∧ port = 0
      · obtain ⟨rfl, rfl⟩ := hsource
        simp [Location.new_source, at_first, ChangeBatch.value]
      · have hne : ¬ Location.new_source node 0 = ⟨other, .source port⟩ := by
          intro heq
          cases heq
          exact hsource ⟨rfl, rfl⟩
        rw [List.count_singleton, beq_eq_false_iff_ne.mpr hne, if_neg Bool.false_ne_true, Nat.cast_zero, zero_mul]
        by_cases hnode : other = node
        · have hport : port ≠ 0 := fun hport => hsource ⟨hnode, hport⟩
          simp [at_first, hport]
        · simp [hnode]
  · have hrest : ∀ output ∈ Finset.range edges.length, output ≠ 0 →
        (((edges.getD output []).map Location.from_target).count location : ℤ) *
          at_first registered.pusher.produced.value output time = 0 := by
      intro output _ houtput
      rw [at_first, if_neg houtput, mul_zero]
    rw [Finset.sum_eq_single 0 hrest]
    · rfl
    · intro hnone
      rw [Finset.mem_range, not_lt, Nat.le_zero, List.length_eq_zero_iff] at hnone
      rw [hnone]
      exact zero_mul _

variable {operator : InputOperator T D}

/-- An operator that has just reported owes nothing. -/
theorem InputOperator.Keeps.tally_dues (h : operator.Keeps) (node : ℕ) (edges : List (List Target))
    (key : Location × T) : tally (operator.state.dues node edges) key = 0 := by
  obtain ⟨registered, hregistered, hprogress, hproduced⟩ := h
  rw [InputState.tally_dues hregistered, funext hprogress, funext hproduced]
  have hnothing : (at_first fun _ => (0 : ℤ) : ℕ → T → ℤ) = 0 := by
    funext port time
    exact ite_self 0
  rw [hnothing]
  exact statement_zero node edges key

/-- What the owner has called is a run of acts, which the stream has counted. -/
theorem InputOperator.Keeps.acted [PathSummary S T] (h : operator.Keeps) (summary : List (List (Antichain S)))
    {made : ℕ} {state : InputState T D} (hcalled : operator.called made = some state) :
    ∃ registered acts, state.handle.pushers = [registered] ∧ Acted summary operator.state.held acts state.held ∧
      Totals acts 0 (at_first registered.progress.value) (at_first registered.pusher.produced.value) := by
  obtain ⟨registered, hregistered, hprogress, hproduced⟩ := h
  have hmoves : InputState.Moves summary operator.state state := InputState.Moves.perform_all hcalled
  obtain ⟨counted, acts, hcounted, hacted, htotals⟩ := hmoves.moves registered hregistered
  simp only [hprogress, hproduced, sub_zero] at htotals
  exact ⟨counted, acts, hcounted, hacted, htotals⟩

/-- One more call. -/
theorem InputOperator.called_succ {made : ℕ} {call : InputCall T D} {state : InputState T D}
    (hnext : operator.next_calls[made]? = some call) (hcalled : operator.called made = some state) :
    operator.called (made + 1) = state.perform call := by
  have htake : operator.next_calls.take (made + 1) = operator.next_calls.take made ++ [call] := by
    rw [List.take_add_one, hnext, Option.toList_some]
  rw [InputOperator.called, htake, List.foldlM_append, ← InputOperator.called, hcalled]
  exact (List.foldlM_cons (m := Option)).trans (bind_pure _)

end Handles

/-! ### Reports of inputs -/

namespace Subgraph

variable {σ S TOuter T D : Type}
  [PartialOrder TOuter] [DecidableLE TOuter] [DecidableEq TOuter] [Ord TOuter] [LinearExtension TOuter]
  [PartialOrder T] [DecidableLE T] [DecidableEq T] [Ord T] [LinearExtension T] [Timestamp T]
  [Refines TOuter T] [PathSummary S T]
  {subgraph after : Subgraph (AnyOperator σ T D) S TOuter T}

/-- What a child reports has been extracted, if it is an input. -/
def InputExpressed (child : PerOperatorState (AnyOperator σ T D) S T) : Prop :=
  ∀ input, child.operator = some (Sum.inr (Sum.inl input)) → Expressed child

/-- Nothing that an input has reported waits in a scope. -/
def InputsExpressed (subgraph : Subgraph (AnyOperator σ T D) S TOuter T) : Prop :=
  ∀ (index : ℕ) (child : PerOperatorState (AnyOperator σ T D) S T), index ≠ 0 →
    subgraph.children[index]? = some child → InputExpressed child

/-- Telling an input that its frontiers have been set does nothing. -/
theorem InputExpressed.told {child changed : PerOperatorState (AnyOperator σ T D) S T}
    (h : InputExpressed child) (htold : Told child changed) : InputExpressed changed := by
  rcases htold with rfl | ⟨operator, operator', shared, hoperator, hset, rfl⟩
  · exact h
  · intro input hinput
    cases hinput
    rcases calls_cases (Or.inr hset) with ⟨_, _, -, hcontra, -⟩ | ⟨second, second', rfl, heq, -⟩
    · cases hcontra
    · cases heq
      obtain ⟨⟨inner, progress⟩, hinner, heq⟩ := Option.map_eq_some_iff.mp hset
      cases heq
      cases second with
      | inr generic =>
        obtain ⟨outcome, -, heq⟩ := Option.map_eq_some_iff.mp hinner
        cases heq
      | inl before =>
        cases hinner
        obtain ⟨hconsumeds, hinternals, hproduceds⟩ := h _ hoperator
        exact ⟨hconsumeds, hinternals, hproduceds⟩

/-- Inputs report when they are scheduled, and what they report is extracted then. -/
theorem InputsExpressed.step (h : subgraph.InputsExpressed) (hlocal : subgraph.AllLocal)
    (hplain : subgraph.wrapper_ghost = ∅) (hinputs : subgraph.input_messages = [])
    {event : ScopeEvent TOuter T} (hscheduled : event.Scheduled)
    (hstep : ScopeStep subgraph event after) : after.InputsExpressed := by
  rcases hstep.statement_cases hscheduled hlocal hplain hinputs with
    hsame | ⟨index, child, changed, hchild, htold, rfl⟩ | ⟨index, child, scheduled, last, hactivated⟩
  · intro index child hindex hchild input hinput
    obtain ⟨found, hfound, hstated⟩ := hsame.child hchild
    have hoperator : found.stated.operator = child.stated.operator := by rw [hstated]
    exact (h index found hindex hfound input (hoperator.trans hinput)).of_stated hstated.symm
  · intro other found hother hfound
    rcases Builder.getElem?_set_cases hfound with ⟨rfl, rfl⟩ | ⟨-, hold⟩
    · exact (h index child hother hchild).told htold
    · exact h other found hother hold
  · intro other found hother hfound
    rw [hactivated.children] at hfound
    rcases Builder.getElem?_set_cases hfound with ⟨rfl, rfl⟩ | ⟨-, hold⟩
    · intro input _
      refine ⟨?_, ?_, ?_⟩
      · rw [hactivated.extracted.consumeds]
        exact sums_drained _
      · rw [hactivated.extracted.internals]
        exact sums_drained _
      · rw [hactivated.extracted.produceds]
        exact sums_drained _
    · exact h other found hother hold

/-- The input that a child is, and its edges. -/
def input_of (child : PerOperatorState (AnyOperator σ T D) S T) : Option (InputOperator T D × List (List Target)) :=
  (child.operator.bind fun operator => operator.getRight?.bind Sum.getLeft?).map fun input =>
    (input, child.ghost_edges)

def input_at (subgraph : Subgraph (AnyOperator σ T D) S TOuter T) (index : ℕ) :
    Option (InputOperator T D × List (List Target)) :=
  (subgraph.children[index]?).bind input_of

theorem input_of_eq_some_iff {child : PerOperatorState (AnyOperator σ T D) S T} {input : InputOperator T D}
    {edges : List (List Target)} : input_of child = some (input, edges) ↔
      child.operator = some (Sum.inr (Sum.inl input)) ∧ edges = child.ghost_edges := by
  unfold input_of
  rw [Option.map_eq_some_iff]
  constructor
  · rintro ⟨found, hfound, heq⟩
    obtain ⟨rfl, rfl⟩ := Prod.mk.inj heq
    obtain ⟨operator, hoperator, hright⟩ := Option.bind_eq_some_iff.mp hfound
    obtain ⟨inner, hinner, hleft⟩ := Option.bind_eq_some_iff.mp hright
    rw [Sum.getRight?_eq_some_iff] at hinner
    rw [Sum.getLeft?_eq_some_iff] at hleft
    subst hinner hleft
    exact ⟨hoperator, rfl⟩
  · rintro ⟨hoperator, rfl⟩
    refine ⟨input, ?_, rfl⟩
    rw [hoperator]
    rfl

/-- Telling a child that its frontiers have been set leaves it the input that it is. -/
theorem input_of_told {child changed : PerOperatorState (AnyOperator σ T D) S T} (htold : Told child changed) :
    input_of changed = input_of child := by
  rcases htold with rfl | ⟨operator, operator', shared, hoperator, hset, rfl⟩
  · rfl
  · have hinputs : operator'.getRight?.bind Sum.getLeft? = operator.getRight?.bind Sum.getLeft? := by
      rcases calls_cases (Or.inr hset) with ⟨_, _, rfl, rfl, -⟩ | ⟨second, second', rfl, rfl, hcall⟩
      · rfl
      · rcases calls_cases hcall with ⟨first, first', rfl, rfl, -⟩ | ⟨_, _, rfl, rfl, -⟩
        · cases hset
          rfl
        · rfl
    unfold input_of
    rw [hoperator]
    exact congrArg (Option.map _) hinputs

/-- Inputs stay what they are in steps that do not activate them. -/
theorem input_at_step (hlocal : subgraph.AllLocal) (hplain : subgraph.wrapper_ghost = ∅)
    (hinputs : subgraph.input_messages = []) {event : ScopeEvent TOuter T} (hscheduled : event.Scheduled)
    (hstep : ScopeStep subgraph event after) {index : ℕ} (hother : event ≠ .activate_child index) :
    after.input_at index = subgraph.input_at index := by
  by_cases hactivates : ∃ active, event = .activate_child active
  · obtain ⟨active, rfl⟩ := hactivates
    obtain ⟨child, scheduled, last, hactivated⟩ := hstep.activated hscheduled hlocal hplain
    have hne : active ≠ index := fun heq => hother (congrArg ScopeEvent.activate_child heq)
    unfold input_at
    rw [hactivated.children, List.getElem?_set_ne hne]
  · rcases hstep.told_cases hscheduled (fun active heq => hactivates ⟨active, heq⟩) hinputs with
      hsame | ⟨told, child, changed, hchild, htold, rfl⟩
    · have hstated : ∀ scope : Subgraph (AnyOperator σ T D) S TOuter T,
          scope.input_at index = (scope.all_stated[index]?).bind input_of := by
        intro scope
        unfold input_at all_stated
        rw [List.getElem?_map, Option.bind_map]
        rfl
      rw [hstated, hstated, hsame.children]
    · unfold input_at
      by_cases hindex : told = index
      · subst hindex
        have hlength := (List.getElem?_eq_some_iff.mp hchild).1
        rw [List.getElem?_set_self hlength, hchild]
        exact input_of_told htold
      · rw [List.getElem?_set_ne hindex]

end Subgraph

/-! ### Workers and owners -/

namespace Cluster

variable {peers : ℕ} {σ S TOuter T D : Type}
  [PartialOrder TOuter] [DecidableLE TOuter] [DecidableEq TOuter] [Ord TOuter] [LinearExtension TOuter]
  [PartialOrder T] [DecidableLE T] [DecidableEq T] [Ord T] [LinearExtension T]
  [Refines TOuter T] [Timestamp T] [PathSummary S T] [AdvancingSummary S T]
  [PartialOrder S] [DecidableLE S] [DecidableEq S]
  {topology : Builder S} {granted : Location × T →₀ ℤ}

/-- The workers, what they have not reported, and how many calls the owner of each handle has made since
    its operator was scheduled. -/
structure Owned (peers : ℕ) (σ S TOuter T D : Type) [Ord TOuter] [Ord T] where
  situation : Situation peers (AnyOperator σ T D) S TOuter T
  made : Fin peers → ℕ → ℕ

namespace Owned

/-- One more call has been made. -/
def called (system : Owned peers σ S TOuter T D) (worker : Fin peers) (index : ℕ) (changes : ProgressVec T) :
    Owned peers σ S TOuter T D where
  situation := system.situation.perform worker index changes
  made := Function.update system.made worker
    (Function.update (system.made worker) index (system.made worker index + 1))

/-- A step has been taken; what an owner calls next comes after the operator was scheduled. -/
def follow (system : Owned peers σ S TOuter T D) (event : Event peers TOuter T)
    (after : Cluster peers (AnyOperator σ T D) S TOuter T) : Owned peers σ S TOuter T D where
  situation := system.situation.follow event after
  made :=
    match event.reporter with
    | some (worker, index) => Function.update system.made worker (Function.update (system.made worker) index 0)
    | none => system.made

section Made

variable (system : Owned peers σ S TOuter T D) {worker other : Fin peers} {index node : ℕ}

theorem made_called (changes : ProgressVec T) :
    (system.called worker index changes).made worker index = system.made worker index + 1 := by
  dsimp only [called]
  rw [Function.update_self, Function.update_self]

theorem made_called_of_ne (changes : ProgressVec T) (h : ¬ (other = worker ∧ node = index)) :
    (system.called worker index changes).made other node = system.made other node := by
  dsimp only [called]
  by_cases hother : other = worker
  · subst hother
    rw [Function.update_self, Function.update_of_ne fun hnode => h ⟨rfl, hnode⟩]
  · rw [Function.update_of_ne hother]

variable {event : Event peers TOuter T} (after : Cluster peers (AnyOperator σ T D) S TOuter T)

theorem made_follow_reporter (h : event.reporter = some (worker, index)) :
    (system.follow event after).made worker index = 0 := by
  dsimp only [follow]
  rw [h]
  dsimp only
  rw [Function.update_self, Function.update_self]

theorem made_follow_of_ne (h : event.reporter ≠ some (worker, index)) :
    (system.follow event after).made worker index = system.made worker index := by
  dsimp only [follow]
  cases hreporter : event.reporter with
  | none => rfl
  | some reporter =>
    obtain ⟨reporting, reported⟩ := reporter
    dsimp only
    by_cases hworker : worker = reporting
    · subst hworker
      rw [Function.update_self, Function.update_of_ne]
      rintro rfl
      exact h hreporter
    · rw [Function.update_of_ne hworker]

end Made

/-- The handle of an input, as its owner has it. -/
def handle_at (system : Owned peers σ S TOuter T D) (worker : Fin peers) (index : ℕ) : Option (InputState T D) :=
  ((system.situation.cluster.workers worker).input_at index).bind fun found =>
    found.1.called (system.made worker index)

end Owned

/-- An owner calls, or a step is taken.  Calls that have not been made when the operator is scheduled are
    made then. -/
inductive OwnedStep : Owned peers σ S TOuter T D → Move peers TOuter T → Owned peers σ S TOuter T D → Prop
  | call {system : Owned peers σ S TOuter T D} {worker : Fin peers} {index : ℕ} {input : InputOperator T D}
      {edges : List (List Target)} {call : InputCall T D} {state after : InputState T D} :
      index ≠ 0 → (system.situation.cluster.workers worker).input_at index = some (input, edges) →
      input.next_calls[system.made worker index]? = some call →
      input.called (system.made worker index) = some state → state.perform call = some after →
      OwnedStep system (.perform worker index (differences (state.dues index edges) (after.dues index edges)))
        (system.called worker index (differences (state.dues index edges) (after.dues index edges)))
  | event {system : Owned peers σ S TOuter T D} {event : Event peers TOuter T}
      {after : Cluster peers (AnyOperator σ T D) S TOuter T} :
      Step system.situation.cluster event after → OwnedStep system (.event event) (system.follow event after)

/-- Steps with owners are moves of the workers. -/
theorem OwnedStep.moves {system later : Owned peers σ S TOuter T D} {move : Move peers TOuter T}
    (h : OwnedStep system move later) : system.situation.Moves move later.situation := by
  cases h with
  | call _ _ _ _ _ => exact .perform _ _ _
  | event hstep => exact .event hstep

/-- What a node owes are the calls that its owner has made, if it is an input. -/
inductive Owes (system : Owned peers σ S TOuter T D) (worker : Fin peers) (index : ℕ) : Prop
  | input {input : InputOperator T D} {edges : List (List Target)} {state : InputState T D} : index ≠ 0 →
      (system.situation.cluster.workers worker).input_at index = some (input, edges) →
      input.called (system.made worker index) = some state →
      (∀ key, system.situation.left worker index key = tally (state.dues index edges) key) →
      Owes system worker index
  | other : (index ≠ 0 → (system.situation.cluster.workers worker).input_at index = none) →
      (∀ key, system.situation.left worker index key = 0) → Owes system worker index

/-- An input owes the calls that its owner has made. -/
theorem Owes.of_called {system : Owned peers σ S TOuter T D} {worker : Fin peers} {index : ℕ}
    (h : Owes system worker index) (hindex : index ≠ 0) {input : InputOperator T D} {edges : List (List Target)}
    (hinput : (system.situation.cluster.workers worker).input_at index = some (input, edges))
    {state : InputState T D} (hcalled : input.called (system.made worker index) = some state)
    (key : Location × T) : system.situation.left worker index key = tally (state.dues index edges) key := by
  cases h with
  | input _ hfound hcalled' howed =>
    obtain ⟨rfl, rfl⟩ := Prod.mk.inj (Option.some.inj (hinput.symm.trans hfound))
    obtain rfl := Option.some.inj (hcalled.symm.trans hcalled')
    exact howed key
  | other hnone _ =>
    rw [hnone hindex] at hinput
    cases hinput

/-- Inputs stay what they are in steps in which they do not report. -/
theorem input_at_of_step {cluster after : Cluster peers (AnyOperator σ T D) S TOuter T}
    (hlocal : ∀ worker, (cluster.workers worker).AllLocal)
    (hobeys : cluster.AllObey (AnyOperator.interface σ S T D) topology granted) {event : Event peers TOuter T}
    (hstep : Step cluster event after) {worker : Fin peers} {index : ℕ}
    (hreporter : event.reporter ≠ some (worker, index)) :
    (after.workers worker).input_at index = (cluster.workers worker).input_at index := by
  cases hstep with
  | @scope scheduled own subgraph hscheduled hscope =>
    by_cases hworker : worker = scheduled
    · subst hworker
      have hafter : (cluster.set_worker worker subgraph).workers worker = subgraph :=
        Function.update_self _ _ _
      rw [hafter]
      refine Subgraph.input_at_step (hlocal worker) (hobeys worker).plain (hobeys worker).inputs hscheduled hscope ?_
      rintro rfl
      exact hreporter rfl
    · have hafter : (cluster.set_worker scheduled subgraph).workers worker = cluster.workers worker :=
        Function.update_of_ne hworker _ _
      rw [hafter]
  | @send _ sender pushers hsend =>
    obtain ⟨left, hworkers, -⟩ := send_progress_cases hsend
    rw [hworkers]
    by_cases hworker : worker = sender
    · subst hworker
      rw [Function.update_self]
      rfl
    · rw [Function.update_of_ne hworker]
  | @recv _ receiver senders hrecv =>
    obtain ⟨⟨broadcast, final⟩, -, rfl⟩ := Option.map_eq_some_iff.mp hrecv
    by_cases hworker : worker = receiver
    · subst hworker
      dsimp only
      rw [Function.update_self]
      rfl
    · dsimp only
      rw [Function.update_of_ne hworker]

variable (topology granted) in
/-- What holds in every run: all workers keep to the interface, and what has not been reported are the calls
    of owners. -/
structure Keeping (system : Owned peers σ S TOuter T D) : Prop where
  accounts : Accounts (fun _ => True) (fun _ => topology) (fun _ key => ∑ _sender : Fin peers, granted key)
    system.situation.cluster
  enclosed : ∀ worker, (system.situation.cluster.workers worker).Enclosed
  obeys : system.situation.cluster.AllObey (AnyOperator.interface σ S T D) topology granted
  expressed : ∀ worker, (system.situation.cluster.workers worker).InputsExpressed
  owes : ∀ worker index, Owes system worker index

variable {system later : Owned peers σ S TOuter T D}

/-- An input with one stream. -/
theorem Keeping.keeps (h : Keeping topology granted system) {worker : Fin peers} {index : ℕ} (hindex : index ≠ 0)
    {input : InputOperator T D} {edges : List (List Target)}
    (hinput : (system.situation.cluster.workers worker).input_at index = some (input, edges)) : input.Keeps := by
  obtain ⟨child, hchild, hfound⟩ := Option.bind_eq_some_iff.mp hinput
  obtain ⟨hoperator, -⟩ := Subgraph.input_of_eq_some_iff.mp hfound
  exact ((h.obeys worker).pending index child hindex hchild).keeps _ hoperator

/-- An owner calls. -/
theorem Keeping.call (h : Keeping topology granted system) {worker : Fin peers} {index : ℕ}
    {input : InputOperator T D} {edges : List (List Target)} {call : InputCall T D} {state after : InputState T D}
    (hindex : index ≠ 0) (hinput : (system.situation.cluster.workers worker).input_at index = some (input, edges))
    (hnext : input.next_calls[system.made worker index]? = some call)
    (hcalled : input.called (system.made worker index) = some state) (hperform : state.perform call = some after) :
    Keeping topology granted
      (system.called worker index (differences (state.dues index edges) (after.dues index edges))) := by
  refine ⟨h.accounts, h.enclosed, h.obeys, h.expressed, fun other node => ?_⟩
  by_cases hsame : other = worker ∧ node = index
  · obtain ⟨rfl, rfl⟩ := hsame
    refine Owes.input hindex hinput (?_ : _ = some after) fun key => ?_
    · rw [system.made_called, InputOperator.called_succ hnext hcalled]
      exact hperform
    · -- what was owed before, and what the call has changed
      refine (Situation.left_perform _ _ key).trans ?_
      rw [tally_differences, (h.owes other node).of_called hindex hinput hcalled, add_sub_cancel]
  · have hleft : ∀ key, (system.called worker index
        (differences (state.dues index edges) (after.dues index edges))).situation.left other node key =
          system.situation.left other node key :=
      fun key => Situation.left_perform_of_ne _ _ key (not_and_or.mp hsame)
    have hmade := system.made_called_of_ne (differences (state.dues index edges) (after.dues index edges)) hsame
    cases h.owes other node with
    | input hnode hfound hstate howed =>
      exact Owes.input hnode hfound (hmade.symm ▸ hstate) fun key => (hleft key).trans (howed key)
    | other hnone hnothing => exact Owes.other hnone fun key => (hleft key).trans (hnothing key)

/-- A worker takes a step. -/
theorem Keeping.event (h : Keeping topology granted system) (hacyclic : ∀ location, ¬ topology.Cyclic T location)
    {event : Event peers TOuter T} {after : Cluster peers (AnyOperator σ T D) S TOuter T}
    (hstep : Step system.situation.cluster event after) : Keeping topology granted (system.follow event after) := by
  have haccounts := h.accounts.step_enclosed h.enclosed hstep
  have hobeys := h.obeys.step topology.advances hacyclic h.accounts haccounts hstep
  refine ⟨haccounts, enclosed_step h.accounts.atRest h.accounts.allLocal h.enclosed hstep, hobeys,
    fun worker => ?_, fun worker index => ?_⟩
  · change (after.workers worker).InputsExpressed
    rcases hstep.worker_cases worker with ⟨own, hscheduled, hscope⟩ | ⟨left, final, hworker⟩
    · exact (h.expressed worker).step (h.accounts.allLocal worker) (h.obeys worker).plain (h.obeys worker).inputs
        hscheduled hscope
    · rw [hworker]
      exact h.expressed worker
  · by_cases hreporter : event.reporter = some (worker, index)
    · -- all has been reported
      have hleft : ∀ key, (system.follow event after).situation.left worker index key = 0 :=
        system.situation.left_follow_reporter after hreporter
      have hmade := system.made_follow_reporter after hreporter
      cases hinput : (after.workers worker).input_at index with
      | none => exact Owes.other (fun _ => hinput) hleft
      | some found =>
        obtain ⟨input, edges⟩ := found
        by_cases hindex : index = 0
        · exact Owes.other (fun hne => absurd hindex hne) hleft
        · have hcalled : input.called 0 = some input.state := rfl
          refine Owes.input hindex hinput (hmade.symm ▸ hcalled) fun key => ?_
          obtain ⟨child, hchild, hfound⟩ := Option.bind_eq_some_iff.mp hinput
          obtain ⟨hoperator, -⟩ := Subgraph.input_of_eq_some_iff.mp hfound
          have hkeeps : input.Keeps := ((hobeys worker).pending index child hindex hchild).keeps _ hoperator
          rw [hleft, hkeeps.tally_dues]
    · have hleft : ∀ key, (system.follow event after).situation.left worker index key =
          system.situation.left worker index key := system.situation.left_follow_of_ne after hreporter
      have hinput := input_at_of_step h.accounts.allLocal h.obeys hstep hreporter
      have hmade := system.made_follow_of_ne after hreporter
      cases h.owes worker index with
      | input hindex hfound hstate howed =>
        exact Owes.input hindex (hinput.trans hfound) (hmade.symm ▸ hstate) fun key => (hleft key).trans (howed key)
      | other hnone hnothing =>
        exact Owes.other (fun hindex => hinput.trans (hnone hindex)) fun key => (hleft key).trans (hnothing key)

theorem Keeping.step (h : Keeping topology granted system) (hacyclic : ∀ location, ¬ topology.Cyclic T location)
    {move : Move peers TOuter T} (hstep : OwnedStep system move later) : Keeping topology granted later := by
  cases hstep with
  | call hindex hinput hnext hcalled hperform => exact h.call hindex hinput hnext hcalled hperform
  | event hstep => exact h.event hacyclic hstep

/-! ### Owners keep the discipline -/

/-- What one node owes changes the capabilities of no other one. -/
theorem Keeping.left_source (h : Keeping topology granted system) (worker : Fin peers) {index other : ℕ}
    (hother : other ≠ index) (output : ℕ) (time : T) :
    system.situation.left worker index (Location.new_source other output, time) = 0 := by
  cases h.owes worker index with
  | input hindex hinput hcalled howed =>
    obtain ⟨registered, acts, hregistered, -⟩ :=
      (h.keeps hindex hinput).acted ([] : List (List (Antichain S))) hcalled
    rw [howed, InputState.tally_dues hregistered, statement_source, if_neg hother]
  | other _ hnothing => exact hnothing _

/-- An input holds what its worker has reported for it. -/
theorem Keeping.held_eq (h : Keeping topology granted system) {worker : Fin peers} {index : ℕ} (hindex : index ≠ 0)
    {child : PerOperatorState (AnyOperator σ T D) S T}
    (hchild : (system.situation.cluster.workers worker).children[index]? = some child)
    {input : InputOperator T D} (hoperator : child.operator = some (Sum.inr (Sum.inl input))) :
    input.state.held = (system.situation.cluster.workers worker).held_at
      (system.situation.cluster.held_before granted worker) index := by
  obtain ⟨reports, held', hreports, htotal, hsame⟩ := ((h.obeys worker).pending index child hindex hchild).acted
  have hexpressed := h.expressed worker index child hindex hchild input hoperator
  have hnothing := hreports.held_eq
  rw [← htotal.internal_eq, hexpressed.internals, add_zero] at hnothing
  exact (hsame _ hoperator).trans hnothing

/-- What a node owes is some deeds of its worker. -/
theorem Keeping.exists_deeds (h : Keeping topology granted system)
    (hacyclic : ∀ location, ¬ topology.Cyclic T location) (worker : Fin peers) (count : ℕ) :
    ∃ deeds last, Run (DeedDone topology (system.situation.cluster.held_before granted worker))
      ⟨(system.situation.cluster.workers worker).local_pointstamp.value, fun _ => False⟩ deeds last ∧
      ∀ key, last.change key = (system.situation.cluster.workers worker).local_pointstamp.value key +
        ∑ node ∈ Finset.range count, system.situation.left worker node key := by
  induction count with
  | zero => exact ⟨[], _, Run.nil, fun key => (add_zero _).symm⟩
  | succ node ih =>
    obtain ⟨deeds, ledger, hrun, hchange⟩ := ih
    simp only [Finset.sum_range_succ]
    cases h.owes worker node with
    | other _ hnothing =>
      refine ⟨deeds, ledger, hrun, fun key => ?_⟩
      rw [hchange, hnothing, add_zero]
    | @input input edges state hnode hinput hcalled howed =>
      obtain ⟨child, hchild, hfound⟩ := Option.bind_eq_some_iff.mp hinput
      obtain ⟨hoperator, rfl⟩ := Subgraph.input_of_eq_some_iff.mp hfound
      obtain ⟨-, hedges, hsummary⟩ := (h.obeys worker).mirrored node child hnode hchild
      obtain ⟨registered, acts, hregistered, hacted, htotals⟩ :=
        (h.keeps hnode hinput).acted child.internal_summary hcalled
      obtain ⟨last, hacts, -⟩ := hacted.run
      have hheld := h.held_eq hnode hchild hoperator
      have hfollows : Follows topology node (system.situation.cluster.held_before granted worker)
          (Holdings.fresh input.state.held) ledger := by
        refine ⟨fun output time => ?_, fun _ _ hseen => hseen.elim, fun _ _ hopened => hopened.elim⟩
        have hothers : ∑ other ∈ Finset.range node, system.situation.left worker other
            (Location.new_source node output, time) = 0 := by
          refine Finset.sum_eq_zero fun other hmem => ?_
          exact h.left_source worker (Finset.mem_range.mp hmem).ne' output time
        rw [hchange, hothers, add_zero]
        exact congrFun (congrFun hheld output) time
      obtain ⟨more, final, hmore, -, hfinal⟩ :=
        exists_deeds_of_acts hedges hsummary topology.advances hacyclic hacts htotals hfollows
      refine ⟨_, final, hrun.append hmore, fun key => ?_⟩
      rw [hfinal, hchange, howed, InputState.tally_dues hregistered, add_assoc]

/-- What a worker has reported since it last sent, and what it has not reported, is grounded. -/
theorem Keeping.grounds (h : Keeping topology granted system)
    (hacyclic : ∀ location, ¬ topology.Cyclic T location) (worker : Fin peers) :
    Grounds capability topology.Precedes (system.situation.cluster.held_before granted worker)
      ⟨fun key => (system.situation.cluster.workers worker).local_pointstamp.value key +
        system.situation.outstanding worker key, fun _ => False⟩ := by
  have horder := topology.advances.precedes_isStrictOrder hacyclic
  obtain ⟨count, -, hcount⟩ := system.situation.exists_outstanding_eq worker 0
  obtain ⟨deeds, last, hrun, hchange⟩ := h.exists_deeds hacyclic worker count
  refine ((h.obeys worker).grounds.run hrun).forget fun key => ?_
  rw [hchange, hcount]

/-- Whatever owners call, workers that keep to the interface are disciplined, where messages are consumed
    that exist. -/
theorem Keeping.disciplined (h : Keeping topology granted system)
    (hacyclic : ∀ location, ¬ topology.Cyclic T location)
    (hmessages : ∀ key, ¬ capability key → 0 ≤ system.situation.existing granted key) :
    Disciplined topology granted system.situation := by
  have hholds : ∀ worker key, capability key → 0 ≤ granted key + system.situation.done worker key := by
    intro worker key hkey
    have hheld := (h.grounds hacyclic worker).holds key hkey
    rw [held_before_of_capability hkey] at hheld
    rw [Situation.done, h.accounts.reported]
    dsimp only at hheld
    linarith
  refine ⟨fun worker => (h.obeys worker).grounds.supported, fun worker => (h.grounds hacyclic worker).supported,
    fun worker key => ?_, fun key => ?_⟩
  · unfold Situation.held
    split
    case isTrue hkey => exact hholds worker key hkey
    case isFalse => exact le_rfl
  · by_cases hkey : capability key
    · exact Finset.sum_nonneg fun worker _ => hholds worker key hkey
    · exact hmessages key hkey

section Runs

variable {builders : Fin peers → SubgraphBuilder (AnyOperator σ T D) S TOuter T}
  {starts : Fin peers → Subgraph (AnyOperator σ T D) S TOuter T}

/-- No owner has called yet. -/
def Owned.begin_with (starts : Fin peers → Subgraph (AnyOperator σ T D) S TOuter T) :
    Owned peers σ S TOuter T D :=
  ⟨Cluster.begin_with starts, fun _ _ => 0⟩

theorem Started.keeping (hstarted : Started topology granted builders starts)
    (hwired : ∀ worker, (builders worker).WellWired) (hplain : ∀ worker, (builders worker).wrapper_ghost = ∅)
    (hprovided : Provided (AnyOperator.interface σ S T D) granted starts) :
    Keeping topology granted (Owned.begin_with starts) := by
  have hobeys := hstarted.allObey hwired hplain hprovided
  refine ⟨hstarted.accounts, hstarted.enclosed, hobeys, fun worker => ?_, fun worker index => ?_⟩
  · obtain ⟨built, iteration, eager, fuel, summary_fuel, hbuild, -, hinit⟩ := hstarted.initialized.builds worker
    obtain ⟨hghosts, hwrappers, -⟩ :=
      plain_of_build (hwired worker) (hplain worker) (hstarted.inputs worker) hbuild
    obtain ⟨-, -, hexpressed⟩ := Subgraph.expressed_of_get_internal_summary hwrappers hghosts hinit
    exact fun index child _ hchild _ _ => (hexpressed index child hchild).1
  · cases hinput : (starts worker).input_at index with
    | none => exact Owes.other (fun _ => hinput) fun _ => rfl
    | some found =>
      obtain ⟨input, edges⟩ := found
      by_cases hindex : index = 0
      · exact Owes.other (fun hne => absurd hindex hne) fun _ => rfl
      · refine Owes.input hindex hinput (rfl : _ = some input.state) fun key => ?_
        obtain ⟨child, hchild, hfound⟩ := Option.bind_eq_some_iff.mp hinput
        obtain ⟨hoperator, -⟩ := Subgraph.input_of_eq_some_iff.mp hfound
        have hkeeps : input.Keeps := ((hobeys worker).pending index child hindex hchild).keeps _ hoperator
        exact (hkeeps.tally_dues index edges key).symm

/-- In any run of workers and owners in which messages are consumed that exist. -/
theorem keeping_of_run (hacyclic : ∀ location, ¬ topology.Cyclic T location)
    (hstarted : Started topology granted builders starts)
    (hwired : ∀ worker, (builders worker).WellWired) (hplain : ∀ worker, (builders worker).wrapper_ghost = ∅)
    (hprovided : Provided (AnyOperator.interface σ S T D) granted starts) {moves : List (Move peers TOuter T)}
    (hrun : Run (fun before move after => OwnedStep before move after ∧
      ∀ key, ¬ capability key → 0 ≤ after.situation.existing granted key) (Owned.begin_with starts) moves system) :
    Run (DisciplinedStep topology granted) (begin_with starts) moves system.situation ∧
      Keeping topology granted system := by
  refine hrun.invariant (P := fun moves last =>
    Run (DisciplinedStep topology granted) (begin_with starts) moves last.situation ∧
      Keeping topology granted last) ⟨Run.nil, hstarted.keeping hwired hplain hprovided⟩ ?_
  rintro moves before move after ⟨hbefore, hkeeping⟩ ⟨hstep, hmessages⟩
  have hafter := hkeeping.step hacyclic hstep
  exact ⟨hbefore.snoc ⟨hstep.moves, hafter.disciplined hacyclic hmessages⟩, hafter⟩

/-- What an owner has done is in what its worker has done. -/
theorem Keeping.granted_add_done (h : Keeping topology granted system) {worker : Fin peers} {index : ℕ}
    (hindex : index ≠ 0) {state : InputState T D} (hstate : system.handle_at worker index = some state) (time : T) :
    granted (Location.new_source index 0, time) +
      system.situation.done worker (Location.new_source index 0, time) = state.held 0 time := by
  obtain ⟨⟨input, edges⟩, hinput, hcalled⟩ := Option.bind_eq_some_iff.mp hstate
  obtain ⟨child, hchild, hfound⟩ := Option.bind_eq_some_iff.mp hinput
  obtain ⟨hoperator, rfl⟩ := Subgraph.input_of_eq_some_iff.mp hfound
  obtain ⟨registered, acts, hregistered, hacted, htotals⟩ :=
    (h.keeps hindex hinput).acted child.internal_summary hcalled
  have hcapability : capability (Location.new_source index 0, time) := rfl
  have howed : system.situation.left worker index (Location.new_source index 0, time) =
      registered.progress.value time := by
    rw [(h.owes worker index).of_called hindex hinput hcalled, InputState.tally_dues hregistered,
      statement_source, if_pos rfl]
    rfl
  obtain ⟨count, hbelow, hcount⟩ := system.situation.exists_outstanding_eq worker index
  have houtstanding : system.situation.outstanding worker (Location.new_source index 0, time) =
      registered.progress.value time := by
    have hothers : ∀ other ∈ Finset.range count, other ≠ index → system.situation.left worker other
        (Location.new_source index 0, time) = 0 :=
      fun other _ hother => h.left_source worker (Ne.symm hother) 0 _
    rw [hcount, Finset.sum_eq_single_of_mem index (Finset.mem_range.mpr hbelow) hothers, howed]
  rw [hacted.held_eq, ← htotals.internal_eq, h.held_eq hindex hchild hoperator, Situation.done,
    h.accounts.reported, houtstanding]
  change _ = _ + _ + at_first registered.progress.value 0 time
  rw [held_before_of_capability hcapability]
  change _ = _ + registered.progress.value time
  ring

/-- An open handle is where its worker has a capability. -/
theorem Keeping.existing_of_open (h : Keeping topology granted system)
    (hdisciplined : Disciplined topology granted system.situation) {worker : Fin peers} {index : ℕ}
    (hindex : index ≠ 0) {state : InputState T D} (hstate : system.handle_at worker index = some state)
    (hopen : state.closed = false) :
    0 < system.situation.existing granted (Location.new_source index 0, state.handle.now_at) := by
  have hcapability : capability (Location.new_source index 0, state.handle.now_at) := rfl
  have hholds : ∀ other : Fin peers, 0 ≤ granted (Location.new_source index 0, state.handle.now_at) +
      system.situation.done other (Location.new_source index 0, state.handle.now_at) := by
    intro other
    have hother := hdisciplined.holds other (Location.new_source index 0, state.handle.now_at)
    rwa [Situation.held, if_pos hcapability] at hother
  refine Finset.sum_pos' (fun other _ => hholds other) ⟨worker, Finset.mem_univ worker, ?_⟩
  rw [h.granted_add_done hindex hstate]
  exact InputState.Moves.held_pos hopen

end Runs

/-! ### Runs that are written down -/

section Examples

variable {granted : List ((Location × T) × ℤ)} {system later : Owned peers σ S TOuter T D}

/-- Let the owner of an input call, or a worker take a step, to a disciplined situation. -/
def perform_owned (fuel : ℕ) (topology : Builder S) (granted : List ((Location × T) × ℤ))
    (system : Owned peers σ S TOuter T D) :
    (Fin peers × ℕ) ⊕ Event peers TOuter T → Option (Owned peers σ S TOuter T D)
  | .inl (worker, index) =>
    if index = 0 then none
    else
      ((system.situation.cluster.workers worker).input_at index).bind fun found =>
        (found.1.next_calls[system.made worker index]?).bind fun call =>
          (found.1.called (system.made worker index)).bind fun state =>
            (state.perform call).bind fun after =>
              let called :=
                system.called worker index (differences (state.dues index found.2) (after.dues index found.2))
              if Passed topology granted called.situation then some called else none
  | .inr event =>
    ((system.situation.cluster.perform fuel event).map (system.follow event)).filter fun after =>
      decide (Passed topology granted after.situation)

theorem owned_of_perform {fuel : ℕ} {item : (Fin peers × ℕ) ⊕ Event peers TOuter T}
    (h : perform_owned fuel topology granted system item = some later) :
    (∃ move, OwnedStep system move later) ∧ Passed topology granted later.situation := by
  cases item with
  | inl call =>
    obtain ⟨worker, index⟩ := call
    rw [perform_owned] at h
    split at h
    case isTrue => cases h
    case isFalse hindex =>
      obtain ⟨⟨input, edges⟩, hinput, h⟩ := Option.bind_eq_some_iff.mp h
      obtain ⟨call, hnext, h⟩ := Option.bind_eq_some_iff.mp h
      obtain ⟨state, hcalled, h⟩ := Option.bind_eq_some_iff.mp h
      obtain ⟨after, hperform, h⟩ := Option.bind_eq_some_iff.mp h
      obtain ⟨hpassed, hafter⟩ := Option.ite_none_right_eq_some.mp h
      cases hafter
      exact ⟨⟨_, .call hindex hinput hnext hcalled hperform⟩, hpassed⟩
  | inr event =>
    obtain ⟨hafter, hpassed⟩ := Option.filter_eq_some_iff.mp h
    obtain ⟨cluster, hperform, rfl⟩ := Option.map_eq_some_iff.mp hafter
    exact ⟨⟨_, .event (step_of_perform hperform)⟩, of_decide_eq_true hpassed⟩

theorem exists_run_of_perform_owned {fuel : ℕ}
    {builders : Fin peers → SubgraphBuilder (AnyOperator σ T D) S TOuter T}
    {starts : Fin peers → Subgraph (AnyOperator σ T D) S TOuter T} (hinit : Initialized builders starts)
    {items : List ((Fin peers × ℕ) ⊕ Event peers TOuter T)} {last : Owned peers σ S TOuter T D}
    (h : items.foldlM (perform_owned fuel topology granted) (Owned.begin_with starts) = some last) :
    ∃ moves, Run (fun before move after => OwnedStep before move after ∧
      ∀ key, ¬ capability key → 0 ≤ after.situation.existing (collect granted) key)
      (Owned.begin_with starts) moves last := by
  have hboth := (Run.of_foldlM h).invariant (P := fun _ last =>
    Accounts inner (fun worker => (starts worker).pointstamp_tracker.builder)
      (fun worker => (starts worker).count) last.situation.cluster ∧
    ∃ moves, Run (fun before move after => OwnedStep before move after ∧
      ∀ key, ¬ capability key → 0 ≤ after.situation.existing (collect granted) key)
      (Owned.begin_with starts) moves last) ⟨hinit.accounts inner, [], Run.nil⟩ ?_
  · exact hboth.2
  · rintro _ before item after ⟨haccounts, moves, hbefore⟩ hperform
    obtain ⟨⟨move, hstep⟩, hpassed⟩ := owned_of_perform hperform
    have hcounted := haccounts.moves hstep.moves
    exact ⟨hcounted, _, hbefore.snoc ⟨hstep, fun key _ => (hpassed.disciplined hcounted.reported).exist key⟩⟩

end Examples

end Cluster

end Timely
