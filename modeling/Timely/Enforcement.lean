/-
  Timely/Enforcement.lean
  =======================
  **The interface of capabilities enforces the discipline of the workers**
  (`timely/src/progress/subgraph.rs`, `timely/src/dataflow/operators/capability.rs`).

  What workers may report, so that all frontiers are safe, is a condition on the sums
  of what their operators do between two batches.  The operators know nothing of
  it: each one only keeps to its own interface, where a capability comes from a
  capability or from a message.  This is enough, for any operators in any graph
  in which timestamps advance along each cycle: what a worker reports is grounded
  at all times.
-/
import Timely.Interface

set_option linter.unusedSectionVars false

namespace Timely

open Library

namespace Subgraph

variable {O S TOuter TInner : Type}
  [PartialOrder TOuter] [DecidableLE TOuter] [DecidableEq TOuter] [Ord TOuter]
  [LinearExtension TOuter]
  [PartialOrder TInner] [DecidableLE TInner] [DecidableEq TInner] [Ord TInner]
  [LinearExtension TInner] [Refines TOuter TInner] [PathSummary S TInner] [Operate O TInner]

/-- Steps change nothing of the children that is fixed, and no wrappers. -/
theorem ScopeStep.fixed {subgraph after : Subgraph O S TOuter TInner} {event : ScopeEvent TOuter TInner}
    (h : ScopeStep subgraph event after) :
    after.children.map PerOperatorState.fixed = subgraph.children.map PerOperatorState.fixed ∧
      after.wrapper_ghost = subgraph.wrapper_ghost := by
  rcases h.framed with hframed | ⟨child_index, flag, -, hactivate⟩
  · exact ⟨hframed.children, hframed.wrapper_ghost⟩
  · obtain ⟨counted, hcounted, hframed⟩ := framed_activate_child hactivate
    obtain ⟨incomplete, count, rfl⟩ := set_incomplete_cases hcounted
    exact ⟨hframed.children, hframed.wrapper_ghost⟩

/-- Children with the same fixed parts are mirrored by the same graph. -/
theorem mirrored_congr {topology : Builder S} {children changed : List (PerOperatorState O S TInner)}
    (hfixed : changed.map PerOperatorState.fixed = children.map PerOperatorState.fixed)
    (h : Mirrored topology children) : Mirrored topology changed := by
  intro index child hindex hchild
  have hmapped := congrArg (fun fixed : List (PerOperatorState O S TInner) => fixed[index]?) hfixed
  simp only [List.getElem?_map, hchild, Option.map_some] at hmapped
  obtain ⟨before, hbefore, heq⟩ := Option.map_eq_some_iff.mp hmapped.symm
  obtain ⟨hnumber, hedges, hsummary⟩ := h index before hindex hbefore
  have hindices : before.fixed.index = child.fixed.index := by rw [heq]
  have hghosts : before.fixed.ghost_edges = child.fixed.ghost_edges := by rw [heq]
  have hsummaries : before.fixed.internal_summary = child.fixed.internal_summary := by rw [heq]
  refine ⟨hindices.symm.trans hnumber, ?_, ?_⟩
  · rw [hedges]
    exact congrArg some hghosts
  · rw [hsummary]
    exact congrArg some hsummaries

/-! ### One worker -/

/-- What a node holds at its outputs: what it has held when the worker last sent, and local updates. -/
def held_at (before : Location × TInner → ℤ) (subgraph : Subgraph O S TOuter TInner) (node output : ℕ)
    (time : TInner) : ℤ :=
  before (Location.new_source node output, time) +
    subgraph.local_pointstamp.value (Location.new_source node output, time)

/-- A scope whose operators keep to the interface, at a worker that held as much when it last sent. -/
structure Obeys (face : Interface O S TInner) (topology : Builder S) (before : Location × TInner → ℤ)
    (subgraph : Subgraph O S TOuter TInner) : Prop where
  mirrored : Mirrored topology subgraph.children
  plain : subgraph.wrapper_ghost = ∅
  inputs : subgraph.input_messages = []
  grounds : Grounds Cluster.capability topology.Precedes before
    ⟨subgraph.local_pointstamp.value, fun _ => False⟩
  pending : ∀ (index : ℕ) (child : PerOperatorState O S TInner), index ≠ 0 →
    subgraph.children[index]? = some child → Pending face (subgraph.held_at before index) child

variable {face : Interface O S TInner} {topology : Builder S} {before before' : Location × TInner → ℤ}
  {subgraph after : Subgraph O S TOuter TInner}

/-- What is granted at first, and not used yet, is grounded. -/
theorem Obeys.of_start (hmirrored : Mirrored topology subgraph.children) (hplain : subgraph.wrapper_ghost = ∅)
    (hinputs : subgraph.input_messages = []) (hlocal : ∀ key, subgraph.local_pointstamp.value key = 0)
    (hbefore : ∀ key, 0 ≤ before key)
    (hpending : ∀ (index : ℕ) (child : PerOperatorState O S TInner), index ≠ 0 →
      subgraph.children[index]? = some child →
        Pending face (fun output time => before (Location.new_source index output, time)) child) :
    Obeys face topology before subgraph where
  mirrored := hmirrored
  plain := hplain
  inputs := hinputs
  grounds := grounds_of_nothing hlocal (fun _ => id) fun key _ => hbefore key
  pending index child hindex hchild := by
    have hheld : subgraph.held_at before index =
        fun output time => before (Location.new_source index output, time) := by
      funext output time
      unfold held_at
      rw [hlocal, add_zero]
    rw [hheld]
    exact hpending index child hindex hchild

/-- Sending updates moves them to what has been held before. -/
theorem Obeys.with_sent (h : Obeys face topology before subgraph)
    {left final : ChangeBatch (Location × TInner)}
    (hsum : ∀ key, Cluster.capability key →
      before' key + left.value key = before key + subgraph.local_pointstamp.value key)
    (hgrounds : Grounds Cluster.capability topology.Precedes before' ⟨left.value, fun _ => False⟩) :
    Obeys face topology before'
      { subgraph with local_pointstamp := left, final_pointstamp := final } where
  mirrored := h.mirrored
  plain := h.plain
  inputs := h.inputs
  grounds := hgrounds
  pending index child hindex hchild := by
    have hheld : held_at before' { subgraph with local_pointstamp := left, final_pointstamp := final } index =
        subgraph.held_at before index := by
      funext output time
      exact hsum _ rfl
    rw [hheld]
    exact h.pending index child hindex hchild

/-- When a child is activated, what it has done goes to the local updates. -/
theorem Obeys.activated (h : Obeys face topology before subgraph) (hadvances : topology.Advances TInner)
    (hacyclic : ∀ location, ¬ topology.Cyclic TInner location)
    (hfixed : after.children.map PerOperatorState.fixed = subgraph.children.map PerOperatorState.fixed)
    (hplain : after.wrapper_ghost = subgraph.wrapper_ghost) {index : ℕ}
    {child scheduled last : PerOperatorState O S TInner}
    (hactivated : ActivatedAt index child scheduled last subgraph after) :
    Obeys face topology before after := by
  have horder := hadvances.precedes_isStrictOrder hacyclic
  obtain ⟨flag, hschedule⟩ := hactivated.schedule
  obtain ⟨hnumber, hedges, hsummary⟩ := h.mirrored index child hactivated.inner hactivated.child_eq
  have hpending := (h.pending index child hactivated.inner hactivated.child_eq).scheduled hschedule
  -- what is fixed is the same at all stages of the activation
  have hkept : scheduled.fixed = child.fixed := fixed_schedule hschedule
  have hindex : scheduled.fixed.index = child.fixed.index := by rw [hkept]
  have hghosts : scheduled.fixed.ghost_edges = child.fixed.ghost_edges := by rw [hkept]
  have hpaths : scheduled.fixed.internal_summary = child.fixed.internal_summary := by rw [hkept]
  have hlast : last.fixed.internal_summary = child.fixed.internal_summary := by
    rw [hactivated.extracted.fixed]
  have hstatement : ∀ key, scheduled.statement key = statement index child.ghost_edges
      (sums scheduled.shared_progress.consumeds) (sums scheduled.shared_progress.internals)
      (sums scheduled.shared_progress.produceds) key := by
    intro key
    rw [← hnumber]
    change statement scheduled.fixed.index scheduled.fixed.ghost_edges _ _ _ key = _
    rw [hindex, hghosts]
    rfl
  have hgrounds : Grounds Cluster.capability topology.Precedes before
      ⟨after.local_pointstamp.value, fun _ => False⟩ := by
    obtain ⟨acts, held', hacted, htotals, -⟩ := hpending.acted
    obtain ⟨done, hrun, -⟩ := hacted.run
    have hfollows : Follows topology index before (Holdings.fresh (subgraph.held_at before index))
        ⟨subgraph.local_pointstamp.value, fun _ => False⟩ :=
      ⟨fun _ _ => rfl, fun _ _ => False.elim, fun _ _ => False.elim⟩
    change Run (OperatorAct.Done scheduled.fixed.internal_summary) _ _ _ at hrun
    rw [hpaths] at hrun
    obtain ⟨deeds, ledger, hdeeds, -, hchange⟩ :=
      exists_deeds_of_acts hedges hsummary hadvances hacyclic hrun htotals hfollows
    refine (h.grounds.run hdeeds).forget fun key => ?_
    rw [hchange, hactivated.locals, hstatement]
  refine ⟨mirrored_congr hfixed h.mirrored, hplain.trans h.plain, hactivated.input_messages.trans h.inputs,
    hgrounds, fun other found hother hfound => ?_⟩
  rw [hactivated.children] at hfound
  rcases Builder.getElem?_set_cases hfound with ⟨rfl, rfl⟩ | ⟨hne, hold⟩
  · have hheld : after.held_at before index =
        subgraph.held_at before index + sums scheduled.shared_progress.internals := by
      funext output time
      change before _ + after.local_pointstamp.value _ = before _ + subgraph.local_pointstamp.value _ + _
      rw [hactivated.locals, hstatement, statement_source, if_pos rfl, add_assoc]
    rw [hheld]
    exact hpending.extracted hactivated.extracted (hpaths.trans hlast.symm)
  · -- the other children hold what they have held
    have hheld : after.held_at before other = subgraph.held_at before other := by
      funext output time
      change before _ + after.local_pointstamp.value _ = before _ + subgraph.local_pointstamp.value _
      rw [hactivated.locals, hstatement, statement_source, if_neg hne.symm, add_zero]
    rw [hheld]
    exact h.pending other found hother hold

/-- The steps of a scope keep to the interface. -/
theorem Obeys.step (h : Obeys face topology before subgraph) (hadvances : topology.Advances TInner)
    (hacyclic : ∀ location, ¬ topology.Cyclic TInner location) (hlocal : subgraph.AllLocal)
    {event : ScopeEvent TOuter TInner} (hscheduled : event.Scheduled)
    (hstep : ScopeStep subgraph event after) : Obeys face topology before after := by
  obtain ⟨hfixed, hplain⟩ := hstep.fixed
  rcases hstep.statement_cases hscheduled hlocal h.plain h.inputs with
    hsame | ⟨index, child, changed, hchild, htold, rfl⟩ | ⟨index, child, scheduled, last, hactivated⟩
  · refine ⟨mirrored_congr hfixed h.mirrored, hplain.trans h.plain, hsame.input_messages.trans h.inputs, ?_,
      fun index child hindex hchild => ?_⟩
    · rw [hsame.locals]
      exact h.grounds
    · obtain ⟨found, hfound, hstated⟩ := hsame.child hchild
      have hheld : after.held_at before index = subgraph.held_at before index := by
        unfold held_at
        rw [hsame.locals]
      rw [hheld]
      exact (h.pending index found hindex hfound).of_stated hstated.symm
  · refine ⟨mirrored_congr hfixed h.mirrored, h.plain, h.inputs, h.grounds,
      fun other found hother hfound => ?_⟩
    rcases Builder.getElem?_set_cases hfound with ⟨rfl, rfl⟩ | ⟨-, hold⟩
    · exact (h.pending index child hother hchild).told htold
    · exact h.pending other found hother hold
  · exact h.activated hadvances hacyclic hfixed hplain hactivated

/-! ### The start -/

/-- A child as it was, but for what its batches hold. -/
structure Emptied (before after : PerOperatorState O S TInner) : Prop where
  operator : after.operator = before.operator
  inputs : after.inputs = before.inputs
  outputs : after.outputs = before.outputs
  internal_summary : after.internal_summary = before.internal_summary
  consumeds : after.shared_progress.consumeds.length = before.shared_progress.consumeds.length
  internals : after.shared_progress.internals.length = before.shared_progress.internals.length
  produceds : after.shared_progress.produceds.length = before.shared_progress.produceds.length

theorem Emptied.refl (child : PerOperatorState O S TInner) : Emptied child child :=
  ⟨rfl, rfl, rfl, rfl, rfl, rfl, rfl⟩

theorem Emptied.trans {first second third : PerOperatorState O S TInner} (h : Emptied first second)
    (h' : Emptied second third) : Emptied first third where
  operator := h'.operator.trans h.operator
  inputs := h'.inputs.trans h.inputs
  outputs := h'.outputs.trans h.outputs
  internal_summary := h'.internal_summary.trans h.internal_summary
  consumeds := h'.consumeds.trans h.consumeds
  internals := h'.internals.trans h.internals
  produceds := h'.produceds.trans h.produceds

/-- Children that state the same differ in what waits for them only. -/
theorem emptied_of_stated {before after : PerOperatorState O S TInner} (h : after.stated = before.stated) :
    Emptied before after := by
  have hstated : ∀ child : PerOperatorState O S TInner, Emptied child child.stated :=
    fun child => ⟨rfl, rfl, rfl, rfl, rfl, rfl, rfl⟩
  have hback : Emptied after.stated after := ⟨rfl, rfl, rfl, rfl, rfl, rfl, rfl⟩
  rw [h] at hback
  exact (hstated before).trans hback

theorem emptied_of_rewired {before after : PerOperatorState O S TInner}
    (h : SubgraphBuilder.Rewired before after) : Emptied before after := by
  obtain ⟨edges, ghost_edges, rfl⟩ := h
  exact ⟨rfl, rfl, rfl, rfl, rfl, rfl, rfl⟩

/-- A child whose reports have been extracted. -/
structure Expressed (child : PerOperatorState O S TInner) : Prop where
  consumeds : sums child.shared_progress.consumeds = 0
  internals : sums child.shared_progress.internals = 0
  produceds : sums child.shared_progress.produceds = 0

/-- Frontier changes that wait for a child do not matter. -/
theorem Expressed.of_stated {child changed : PerOperatorState O S TInner} (h : Expressed child)
    (heq : changed.stated = child.stated) : Expressed changed := by
  have hconsumeds : changed.stated.shared_progress.consumeds = child.stated.shared_progress.consumeds := by
    rw [heq]
  have hinternals : changed.stated.shared_progress.internals = child.stated.shared_progress.internals := by
    rw [heq]
  have hproduceds : changed.stated.shared_progress.produceds = child.stated.shared_progress.produceds := by
    rw [heq]
  exact ⟨(congrArg sums hconsumeds).trans h.consumeds, (congrArg sums hinternals).trans h.internals,
    (congrArg sums hproduceds).trans h.produceds⟩

/-- Expressing one child extracts its reports, in scopes without wrappers. -/
theorem expressed_of_express_child {other : ℕ} (hplain : subgraph.wrapper_ghost = ∅)
    (hghosts : ∀ ghost, subgraph.ghost_wrapper.lookup ghost = none)
    (h : subgraph.express_child other = some after) :
    after.input_messages = subgraph.input_messages ∧
      ∀ (index : ℕ) (child : PerOperatorState O S TInner), after.children[index]? = some child →
        ∃ before, subgraph.children[index]? = some before ∧ Emptied before child ∧
          (Expressed child ∨ (index ≠ other ∧ before = child)) := by
  unfold express_child at h
  split at h
  case h_1 => cases h
  case h_2 found hfound =>
    rw [if_neg (by rw [hghosts]; exact Bool.false_ne_true)] at h
    obtain ⟨⟨extracted, extraction⟩, hextracted, rfl⟩ := Option.map_eq_some_iff.mp h
    refine ⟨rfl, fun index child hchild => ?_⟩
    rcases Builder.getElem?_set_cases hchild with ⟨rfl, rfl⟩ | ⟨hne, hold⟩
    · have hnone : subgraph.wrapper_ghost.lookup found.index = none := by
        rw [hplain]
        exact AList.lookup_empty _
      obtain ⟨-, rfl⟩ := value_extract_progress hnone hextracted
      exact ⟨found, hfound, ⟨rfl, rfl, rfl, rfl, length_drained _, length_drained _, length_drained _⟩,
        Or.inl ⟨sums_drained _, sums_drained _, sums_drained _⟩⟩
    · exact ⟨child, hold, Emptied.refl child, Or.inr ⟨hne.symm, rfl⟩⟩

/-- Expressing all children extracts all their reports. -/
theorem expressed_of_express {built expressed : Subgraph O S TOuter TInner} (hplain : built.wrapper_ghost = ∅)
    (hghosts : ∀ ghost, built.ghost_wrapper.lookup ghost = none)
    (h : (List.range built.children.length).foldlM express_child built = some expressed) :
    Framed built expressed ∧ expressed.input_messages = built.input_messages ∧
      ∀ (index : ℕ) (child : PerOperatorState O S TInner), expressed.children[index]? = some child →
        Expressed child ∧ ∃ before, built.children[index]? = some before ∧ Emptied before child := by
  have hall : Framed built expressed ∧ expressed.input_messages = built.input_messages ∧
      ∀ (index : ℕ) (child : PerOperatorState O S TInner), expressed.children[index]? = some child →
        (index ∈ List.range built.children.length → Expressed child) ∧
          ∃ before, built.children[index]? = some before ∧ Emptied before child := by
    refine (Run.of_foldlM h).invariant (P := fun labels middle => Framed built middle ∧
      middle.input_messages = built.input_messages ∧
      ∀ (index : ℕ) (child : PerOperatorState O S TInner), middle.children[index]? = some child →
        (index ∈ labels → Expressed child) ∧
          ∃ before, built.children[index]? = some before ∧ Emptied before child) ?_ ?_
    · exact ⟨Framed.refl built, rfl, fun index child hchild =>
        ⟨fun hmem => absurd hmem List.not_mem_nil, child, hchild, Emptied.refl child⟩⟩
    · rintro labels middle other next ⟨hframed, hinputs, hexpressed⟩ hstep
      have hnone : ∀ ghost, middle.ghost_wrapper.lookup ghost = none := by
        rw [hframed.ghost_wrapper]
        exact hghosts
      obtain ⟨hsame, hchildren⟩ := expressed_of_express_child (hframed.wrapper_ghost.trans hplain) hnone hstep
      refine ⟨hframed.trans (framed_express_child hstep), hsame.trans hinputs, fun index child hchild => ?_⟩
      obtain ⟨found, hfound, hkept, hcases⟩ := hchildren index child hchild
      obtain ⟨hdone, before, hbefore, hfirst⟩ := hexpressed index found hfound
      refine ⟨fun hmem => ?_, before, hbefore, hfirst.trans hkept⟩
      rcases hcases with hnow | ⟨hne, rfl⟩
      · exact hnow
      · rcases List.mem_append.mp hmem with hold | hlast
        · exact hdone hold
        · exact absurd (List.mem_singleton.mp hlast) hne
  obtain ⟨hframed, hinputs, hexpressed⟩ := hall
  refine ⟨hframed, hinputs, fun index child hchild => ?_⟩
  obtain ⟨hdone, hbefore⟩ := hexpressed index child hchild
  refine ⟨hdone (List.mem_range.mpr ?_), hbefore⟩
  have hlength := congrArg List.length hframed.children
  rw [List.length_map, List.length_map] at hlength
  rw [← hlength]
  exact (List.getElem?_eq_some_iff.mp hchild).1

/-- Initialized scopes without inputs and wrappers have reported everything. -/
theorem expressed_of_get_internal_summary {built start : Subgraph O S TOuter TInner}
    (hplain : built.wrapper_ghost = ∅) (hghosts : ∀ ghost, built.ghost_wrapper.lookup ghost = none) {fuel : ℕ}
    (h : built.get_internal_summary fuel = some start) :
    Framed built start ∧ start.input_messages = built.input_messages ∧
      ∀ (index : ℕ) (child : PerOperatorState O S TInner), start.children[index]? = some child →
        Expressed child ∧ ∃ before, built.children[index]? = some before ∧ Emptied before child := by
  obtain ⟨expressed, hall, hpropagate⟩ := Option.bind_eq_some_iff.mp h
  obtain ⟨hframed, hinputs, hexpressed⟩ := expressed_of_express hplain hghosts hall
  have hpropagates : expressed.Propagates start := ⟨fuel, hpropagate⟩
  have hsame := hpropagates.sameStatements
  refine ⟨hframed.trans (framed_propagates hpropagates), hsame.input_messages.trans hinputs,
    fun index child hchild => ?_⟩
  obtain ⟨middle, hmiddle, hstated⟩ := hsame.child hchild
  obtain ⟨hdone, before, hbefore, hkept⟩ := hexpressed index middle hmiddle
  exact ⟨hdone.of_stated hstated.symm, before, hbefore, hkept.trans (emptied_of_stated hstated.symm)⟩

end Subgraph

/-! ### All workers -/

namespace Cluster

variable {peers : ℕ} {O S TOuter TInner : Type}
  [PartialOrder TOuter] [DecidableLE TOuter] [DecidableEq TOuter] [Ord TOuter]
  [LinearExtension TOuter]
  [PartialOrder TInner] [DecidableLE TInner] [DecidableEq TInner] [Ord TInner]
  [LinearExtension TInner] [Refines TOuter TInner] [PathSummary S TInner] [Operate O TInner]
  {face : Interface O S TInner} {topology : Builder S} {granted : Location × TInner →₀ ℤ}
  {cluster after : Cluster peers O S TOuter TInner}

/-- All workers keep to the interface. -/
def AllObey (face : Interface O S TInner) (topology : Builder S) (granted : Location × TInner →₀ ℤ)
    (cluster : Cluster peers O S TOuter TInner) : Prop :=
  ∀ worker, (cluster.workers worker).Obeys face topology (cluster.held_before granted worker)

/-- At a source a worker has held what it was granted, and what it has sent. -/
theorem held_before_of_capability {key : Location × TInner} (hkey : capability key) (worker : Fin peers) :
    cluster.held_before granted worker key = granted key + cluster.sent_value worker key := by
  unfold held_before
  rw [if_pos hkey]

/-- A step in which the updates of a worker have been sent, or are left as they were. -/
theorem obeys_of_sent {initial : Fin peers → Location × TInner → ℤ} {tracked : Location × TInner → Prop}
    (haccounts : Accounts tracked (fun _ => topology) initial cluster)
    (haccounts' : Accounts tracked (fun _ => topology) initial after) {worker : Fin peers}
    (h : (cluster.workers worker).Obeys face topology (cluster.held_before granted worker))
    (hreported : after.reported worker = cluster.reported worker)
    {left final : ChangeBatch (Location × TInner)} (hworker : after.workers worker =
      { cluster.workers worker with local_pointstamp := left, final_pointstamp := final })
    (hbatches : after.batches worker = cluster.batches worker ∨
      after.batches worker = cluster.batches worker ++ [cluster.pending worker]) :
    (after.workers worker).Obeys face topology (after.held_before granted worker) := by
  have hsum : ∀ key, after.sent_value worker key + left.value key =
      cluster.sent_value worker key + (cluster.workers worker).local_pointstamp.value key := by
    intro key
    have hafter := haccounts'.reported worker key
    rw [hworker, hreported, haccounts.reported worker key] at hafter
    exact hafter.symm
  have hheld : ∀ key, capability key → after.held_before granted worker key + left.value key =
      cluster.held_before granted worker key + (cluster.workers worker).local_pointstamp.value key := by
    intro key hkey
    rw [held_before_of_capability hkey, held_before_of_capability hkey, add_assoc, hsum, add_assoc]
  rw [hworker]
  refine h.with_sent hheld ?_
  rcases hbatches with hsame | hsnoc
  · have hsent : ∀ key, after.sent_value worker key = cluster.sent_value worker key := by
      intro key
      rw [← sum_batches, hsame, sum_batches]
    have hbefore : after.held_before granted worker = cluster.held_before granted worker := by
      funext key
      unfold held_before
      rw [hsent]
    rw [hbefore]
    refine h.grounds.forget fun key => ?_
    have hkey := hsum key
    rw [hsent] at hkey
    exact (add_left_cancel hkey).symm
  · -- all local updates have been sent
    have hleft : ∀ key, left.value key = 0 := by
      intro key
      have hsent : after.sent_value worker key = cluster.sent_value worker key +
          (cluster.workers worker).local_pointstamp.value key := by
        rw [← sum_batches, hsnoc, List.sum_append, List.sum_singleton, Finsupp.add_apply, sum_batches]
        rfl
      have hkey := hsum key
      rw [hsent] at hkey
      linarith
    refine grounds_of_nothing hleft (fun _ => id) fun key hkey => ?_
    have hholds := h.grounds.holds key hkey
    have hbefore := hheld key hkey
    rw [hleft, add_zero] at hbefore
    rw [hbefore]
    exact hholds

/-- A step of any worker keeps all of them to the interface. -/
theorem AllObey.step (h : cluster.AllObey face topology granted) (hadvances : topology.Advances TInner)
    (hacyclic : ∀ location, ¬ topology.Cyclic TInner location)
    {initial : Fin peers → Location × TInner → ℤ} {tracked : Location × TInner → Prop}
    (haccounts : Accounts tracked (fun _ => topology) initial cluster)
    (haccounts' : Accounts tracked (fun _ => topology) initial after) {event : Event peers TOuter TInner}
    (hstep : Step cluster event after) : after.AllObey face topology granted := by
  intro worker
  have hbatches := batches_step hstep worker
  cases hstep with
  | @scope scheduled own subgraph hscheduled hscope =>
    change (Function.update cluster.workers scheduled subgraph worker).Obeys face topology
      (cluster.held_before granted worker)
    by_cases hworker : worker = scheduled
    · subst hworker
      rw [Function.update_self]
      exact (h worker).step hadvances hacyclic (haccounts.allLocal worker) hscheduled hscope
    · rw [Function.update_of_ne hworker]
      exact h worker
  | @send _ sender pushers hsend =>
    obtain ⟨left, hworkers, -, hreported, -⟩ := send_progress_cases hsend
    have hreported' := congrFun hreported worker
    by_cases hworker : worker = sender
    · subst hworker
      exact obeys_of_sent haccounts haccounts' (h worker) hreported'
        (by rw [hworkers, Function.update_self]) hbatches
    · exact obeys_of_sent haccounts haccounts' (h worker) hreported'
        (by rw [hworkers, Function.update_of_ne hworker]) hbatches
  | @recv _ receiver senders hrecv =>
    obtain ⟨⟨broadcast, final⟩, -, rfl⟩ := Option.map_eq_some_iff.mp hrecv
    by_cases hworker : worker = receiver
    · subst hworker
      exact obeys_of_sent haccounts haccounts' (h worker) rfl (Function.update_self _ _ _) hbatches
    · exact obeys_of_sent haccounts haccounts' (h worker) rfl (Function.update_of_ne hworker _ _) hbatches

/-- Workers that keep to the interface are disciplined, where messages are consumed that exist. -/
theorem AllObey.disciplined (h : cluster.AllObey face topology granted)
    {initial : Fin peers → Location × TInner → ℤ} {tracked : Location × TInner → Prop}
    (haccounts : Accounts tracked (fun _ => topology) initial cluster)
    (hmessages : ∀ key, ¬ capability key → 0 ≤ cluster.existing granted key) :
    Disciplined topology granted (Situation.settled cluster) := by
  have hholds : ∀ worker key, capability key →
      0 ≤ granted key + (Situation.settled cluster).done worker key := by
    intro worker key hkey
    have hheld := (h worker).grounds.holds key hkey
    rw [Situation.done_settled, haccounts.reported, ← add_assoc, ← held_before_of_capability hkey]
    exact hheld
  refine ⟨fun worker => (h worker).grounds.supported, fun worker => ?_, fun worker key => ?_, fun key => ?_⟩
  · simp only [Situation.outstanding_settled, add_zero]
    exact (h worker).grounds.supported
  · unfold Situation.held
    split
    case isTrue hkey => exact hholds worker key hkey
    case isFalse => exact le_rfl
  · by_cases hkey : capability key
    · exact Finset.sum_nonneg fun worker _ => hholds worker key hkey
    · rw [Situation.existing_settled]
      exact hmessages key hkey

variable [PartialOrder S] [DecidableLE S] {builders : Fin peers → SubgraphBuilder O S TOuter TInner}
  {starts : Fin peers → Subgraph O S TOuter TInner}

/-- The operators of all workers keep to the interface at first, have reports of their shape, and hold what
    has been granted. -/
def Provided (face : Interface O S TInner) (granted : Location × TInner →₀ ℤ)
    (starts : Fin peers → Subgraph O S TOuter TInner) : Prop :=
  ∀ (worker : Fin peers) (index : ℕ) (child : PerOperatorState O S TInner) (operator : O), index ≠ 0 →
    (starts worker).children[index]? = some child → child.operator = some operator →
      face.Keeps operator child.internal_summary ∧
        child.shared_progress.Shaped (face.inputs operator) (face.outputs operator) ∧ ∀ output time,
        face.held operator output time = granted (Location.new_source index output, time)

/-- Without wrappers there are no ghosts. -/
theorem lookup_of_plain {builder : SubgraphBuilder O S TOuter TInner} (hwired : builder.WellWired)
    (hplain : builder.wrapper_ghost = ∅) (ghost : ℕ) : builder.ghost_wrapper.lookup ghost = none := by
  cases hlookup : builder.ghost_wrapper.lookup ghost with
  | none => rfl
  | some wrapper =>
    obtain ⟨-, ghosts, hwrapped, -⟩ := hwired.ghosts ghost wrapper hlookup
    rw [hplain] at hwrapped
    cases hwrapped

/-- Scopes that are built without wrappers and inputs have none. -/
theorem plain_of_build {builder : SubgraphBuilder O S TOuter TInner} (hwired : builder.WellWired)
    (hplain : builder.wrapper_ghost = ∅) (hinputs : builder.input_messages = [])
    {iteration : IterationOrder ℕ} {eager : Bool} {fuel : ℕ} {built : Subgraph O S TOuter TInner}
    (h : builder.build iteration eager fuel = some built) :
    (∀ ghost, built.ghost_wrapper.lookup ghost = none) ∧ built.wrapper_ghost = ∅ ∧
      built.input_messages = [] := by
  obtain ⟨reorganized, -, h⟩ := Option.bind_eq_some_iff.mp h
  obtain ⟨assembled, -, h⟩ := Option.bind_eq_some_iff.mp h
  obtain ⟨allocated, -, h⟩ := Option.bind_eq_some_iff.mp h
  split at h
  case isFalse => cases h
  case isTrue =>
    cases h
    exact ⟨lookup_of_plain hwired hplain, hplain, hinputs⟩

/-- The children of an initialized worker are those of its builder. -/
theorem Started.originals (h : Started topology granted builders starts)
    (hwired : ∀ worker, (builders worker).WellWired) (hplain : ∀ worker, (builders worker).wrapper_ghost = ∅)
    {worker : Fin peers} {index : ℕ} {child : PerOperatorState O S TInner} (hindex : index ≠ 0)
    (hchild : (starts worker).children[index]? = some child) :
    ∃ original ∈ (builders worker).children, original.index = index ∧ Subgraph.Emptied original child := by
  obtain ⟨built, iteration, eager, fuel, summary_fuel, hbuild, -, hinit⟩ := h.initialized.builds worker
  obtain ⟨hghosts, hwrappers, -⟩ :=
    plain_of_build (hwired worker) (hplain worker) (h.inputs worker) hbuild
  obtain ⟨-, -, hexpressed⟩ := Subgraph.expressed_of_get_internal_summary hwrappers hghosts hinit
  obtain ⟨-, before, hbefore, hkept⟩ := hexpressed index child hchild
  obtain ⟨original, hmem, hnumber, hrewired⟩ :=
    SubgraphBuilder.originals_of_build hbuild hindex hbefore
  exact ⟨original, hmem, hnumber, (Subgraph.emptied_of_rewired hrewired).trans hkept⟩

/-- Initialized workers have done nothing yet. -/
theorem Started.allObey (h : Started topology granted builders starts)
    (hwired : ∀ worker, (builders worker).WellWired) (hplain : ∀ worker, (builders worker).wrapper_ghost = ∅)
    (hprovided : Provided face granted starts) : (start starts).AllObey face topology granted := by
  intro worker
  obtain ⟨built, iteration, eager, fuel, summary_fuel, hbuild, -, hinit⟩ := h.initialized.builds worker
  have hmirrored := SubgraphBuilder.mirrored_of_build (hwired worker) (hplain worker) hbuild
  obtain ⟨hghosts, hwrappers, hmessages⟩ :=
    plain_of_build (hwired worker) (hplain worker) (h.inputs worker) hbuild
  obtain ⟨hframed, hinputs, hexpressed⟩ :=
    Subgraph.expressed_of_get_internal_summary hwrappers hghosts hinit
  obtain ⟨assembled, hbuilt⟩ := SubgraphBuilder.built_of_build hbuild
  obtain ⟨hrest, -, hlocals, -⟩ := Subgraph.atRest_of_get_internal_summary hbuilt hinit
  have hgraph : built.pointstamp_tracker.builder = topology := by
    rw [hbuilt.allocated.fresh.builder_eq, ← hrest.builder, h.graph]
  rw [hgraph] at hmirrored
  have hsent : ∀ key, (start starts).sent_value worker key = 0 := fun _ => rfl
  refine Subgraph.Obeys.of_start (Subgraph.mirrored_congr hframed.children hmirrored)
    (hframed.wrapper_ghost.trans hwrappers) (hinputs.trans hmessages) (fun key => ?_) (fun key => ?_)
    fun index child hindex hchild => ?_
  · change (starts worker).local_pointstamp.value key = 0
    rw [hlocals, ChangeBatch.value_new]
  · unfold held_before
    split
    case isTrue =>
      rw [hsent, add_zero]
      exact h.grants key
    case isFalse => exact le_rfl
  · obtain ⟨hdone, -⟩ := hexpressed index child hchild
    refine ⟨fun operator hoperator => (hprovided worker index child operator hindex hchild hoperator).1,
      fun operator hoperator => (hprovided worker index child operator hindex hchild hoperator).2.1, [], _,
      acted_nil _ _, ⟨hdone.consumeds, hdone.internals, hdone.produceds⟩, fun operator hoperator => ?_⟩
    funext output time
    have hkey : capability (Location.new_source index output, time) := rfl
    rw [held_before_of_capability hkey, hsent, add_zero]
    exact (hprovided worker index child operator hindex hchild hoperator).2.2 output time

/-- In any run in which messages are consumed that exist, operators that keep to the interface at first keep
    to it. -/
theorem obeys_of_interface (hadvances : topology.Advances TInner)
    (hacyclic : ∀ location, ¬ topology.Cyclic TInner location)
    (hstarted : Started topology granted builders starts)
    (hwired : ∀ worker, (builders worker).WellWired) (hplain : ∀ worker, (builders worker).wrapper_ghost = ∅)
    (hprovided : Provided face granted starts) {events : List (Event peers TOuter TInner)}
    (hrun : Run (fun before event after => Step before event after ∧
      ∀ key, ¬ capability key → 0 ≤ existing granted after key) (start starts) events cluster) :
    Run (DisciplinedStep topology granted) (begin_with starts) (events.map Move.event)
        (Situation.settled cluster) ∧
      Accounts (fun _ => True) (fun _ => topology) (fun _ key => ∑ _sender : Fin peers, granted key) cluster ∧
      (∀ worker, (cluster.workers worker).Enclosed) ∧ cluster.AllObey face topology granted := by
  refine hrun.invariant (P := fun events last =>
    Run (DisciplinedStep topology granted) (begin_with starts) (events.map Move.event)
      (Situation.settled last) ∧
    Accounts (fun _ => True) (fun _ => topology) (fun _ key => ∑ _sender : Fin peers, granted key) last ∧
    (∀ worker, (last.workers worker).Enclosed) ∧ last.AllObey face topology granted) ?_ ?_
  · exact ⟨Run.nil, hstarted.accounts, hstarted.enclosed, hstarted.allObey hwired hplain hprovided⟩
  · rintro labels before event after ⟨hbefore, haccounts, henclosed, hobeys⟩ ⟨hstep, hmessages⟩
    have haccounts' := haccounts.step_enclosed henclosed hstep
    have hobeys' := hobeys.step hadvances hacyclic haccounts haccounts' hstep
    refine ⟨?_, haccounts', enclosed_step haccounts.atRest haccounts.allLocal henclosed hstep, hobeys'⟩
    rw [List.map_append, List.map_singleton]
    exact hbefore.snoc (disciplinedStep_settled hstep (hobeys'.disciplined haccounts' hmessages))

/-- Operators that keep to the interface make disciplined workers: in any run in which messages are
    consumed that exist, all updates of all workers are grounded in capabilities and consumed messages. -/
theorem disciplined_of_interface (hadvances : topology.Advances TInner)
    (hacyclic : ∀ location, ¬ topology.Cyclic TInner location)
    (hstarted : Started topology granted builders starts)
    (hwired : ∀ worker, (builders worker).WellWired) (hplain : ∀ worker, (builders worker).wrapper_ghost = ∅)
    (hprovided : Provided face granted starts) {events : List (Event peers TOuter TInner)}
    (hrun : Run (fun before event after => Step before event after ∧
      ∀ key, ¬ capability key → 0 ≤ existing granted after key) (start starts) events cluster) :
    Run (DisciplinedStep topology granted) (begin_with starts) (events.map Move.event)
      (Situation.settled cluster) :=
  (obeys_of_interface hadvances hacyclic hstarted hwired hplain hprovided hrun).1

end Cluster

end Timely
