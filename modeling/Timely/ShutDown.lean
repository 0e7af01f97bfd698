/-
  Timely/ShutDown.lean
  ====================
  **A child that has been shut down is told of no progress any more**
  (`timely/src/progress/subgraph.rs`, `Subgraph::activate_child` and
  `PerOperatorState::schedule`).

  A complete child is shut down when its input frontiers are empty and it holds no
  capability.  Frontiers never retreat, so that they stay empty, and nothing is
  pushed at the inputs of this child; that a closed operator is told of progress
  is an error which does not occur.
-/
import Timely.Safety

set_option linter.unusedSectionVars false

namespace Timely

open Library

/-- Batches that hold no updates. -/
def AllEmpty {T : Type} [Ord T] (batches : List (ChangeBatch T)) : Prop :=
  ∀ changes ∈ batches, changes.updates = []

theorem is_empty_of_updates {T : Type} [PartialOrder T] [DecidableEq T] [Ord T] [LinearExtension T]
    {batch : ChangeBatch T} (h : batch.updates = []) :
    batch.is_empty.1 = true ∧ batch.is_empty.2.updates = [] := by
  have hclean : batch.clean = batch.updates.length := by
    have hle := batch.clean_le
    rw [h] at hle ⊢
    exact Nat.le_zero.mp hle
  have hcompact := ChangeBatch.compact_of_clean hclean
  have hlength : batch.updates.length = 0 := by rw [h, List.length_nil]
  unfold ChangeBatch.is_empty
  rw [if_neg (by omega), hcompact]
  exact ⟨List.isEmpty_iff.mpr h, h⟩

namespace PerOperatorState

variable {O S T : Type} [PartialOrder T] [DecidableLE T] [DecidableEq T] [Ord T] [LinearExtension T]

theorem not_prematurely_shut_down {child : PerOperatorState O S T}
    (h : AllEmpty child.shared_progress.frontiers) : child.prematurely_shut_down = false := by
  unfold prematurely_shut_down
  rw [Bool.and_eq_false_iff]
  right
  rw [List.any_eq_false]
  intro changes hchanges
  rw [(is_empty_of_updates (h changes hchanges)).1]
  decide

end PerOperatorState

namespace Subgraph

variable {O S TOuter TInner : Type}
  [PartialOrder TOuter] [DecidableLE TOuter] [DecidableEq TOuter] [Ord TOuter]
  [LinearExtension TOuter]
  [PartialOrder TInner] [DecidableLE TInner] [DecidableEq TInner] [Ord TInner]
  [LinearExtension TInner] [Refines TOuter TInner]

/-- Operators that read all frontier changes whenever they are scheduled. -/
structure Drains [Operate O TInner] (draining : O → Prop) : Prop where
  schedule : ∀ {operator after : O} {shared read : SharedProgress TInner} {incomplete : Bool},
    draining operator → Operate.schedule operator shared = some (incomplete, after, read) →
    draining after ∧ AllEmpty read.frontiers
  set_external_summary : ∀ {operator after : O} {shared read : SharedProgress TInner},
    draining operator → Operate.set_external_summary operator shared = some (after, read) →
    draining after

/-- Nothing drains when there is no operator. -/
theorem Drains.no_operator [Operate O TInner] : Drains (fun _ : O => False) :=
  ⟨fun hdraining _ => hdraining.elim, fun hdraining _ => hdraining⟩

/-- Nothing may arrive any more at the inputs of a child. -/
def Closed (subgraph : Subgraph O S TOuter TInner) (child_index : ℕ) : Prop :=
  ∀ port, (subgraph.pointstamp_tracker.implications_at
    (Location.new_target child_index port)).frontier = []

/-- A child with an operator that drains, or one that has been shut down with nothing left for it. -/
structure Guarded (draining : O → Prop) (subgraph : Subgraph O S TOuter TInner) (child_index : ℕ) :
    Prop where
  drains : ∀ {child operator}, subgraph.children[child_index]? = some child →
    child.operator = some operator → draining operator
  closed : ∀ {child}, subgraph.children[child_index]? = some child → child.operator = none →
    AllEmpty child.shared_progress.frontiers ∧ subgraph.Closed child_index

variable {draining : O → Prop} {subgraph after : Subgraph O S TOuter TInner} {child_index : ℕ}

theorem Guarded.not_prematurely_shut_down (h : Guarded draining subgraph child_index)
    {child : PerOperatorState O S TInner} (hchild : subgraph.children[child_index]? = some child) :
    child.prematurely_shut_down = false := by
  cases hoperator : child.operator with
  | none => exact PerOperatorState.not_prematurely_shut_down (h.closed hchild hoperator).1
  | some operator =>
    unfold PerOperatorState.prematurely_shut_down
    rw [hoperator]
    rfl

/-- A step that concerns neither this child nor the implications. -/
theorem Guarded.congr (h : Guarded draining subgraph child_index)
    (hchild : after.children[child_index]? = subgraph.children[child_index]?)
    (hclosed : subgraph.Closed child_index → after.Closed child_index) :
    Guarded draining after child_index := by
  refine ⟨fun hfound => ?_, fun hfound hnone => ?_⟩
  · rw [hchild] at hfound
    exact h.drains hfound
  · rw [hchild] at hfound
    obtain ⟨hempty, hbefore⟩ := h.closed hfound hnone
    exact ⟨hempty, hclosed hbefore⟩

theorem closed_of_nothing_left {child_state : PerOperator S TInner}
    (hstate : subgraph.pointstamp_tracker.per_operator[child_index]? = some child_state)
    (h : nothing_left child_state = true) : subgraph.Closed child_index := by
  intro port
  obtain ⟨htargets, -⟩ := Bool.and_eq_true_iff.mp h
  unfold Tracker.implications_at Tracker.port lookup_port
  rw [Location.new_target, hstate, Option.bind_some]
  change ((child_state.targets[port]?).map PortInformation.implications |>.getD
    MutableAntichain.new).frontier = []
  cases hport : child_state.targets[port]? with
  | none => rfl
  | some information =>
    exact List.isEmpty_iff.mp (List.all_eq_true.mp htargets information (List.mem_of_getElem? hport))

/-! ### Activating -/

theorem frontiers_extract_wrapper {index : ℕ} {wrapper_ghost : AList fun _ : ℕ => List ℕ}
    {wrapper_ghost_edges : AList fun _ : ℕ => List (ℕ × ℕ)}
    {before wrapped : SharedProgress TInner × Extraction TInner}
    (h : extract_wrapper index wrapper_ghost wrapper_ghost_edges before = some wrapped) :
    wrapped.1.frontiers = before.1.frontiers ∧
      wrapped.1.wrapper_frontiers = before.1.wrapper_frontiers := by
  unfold extract_wrapper at h
  split at h
  case h_1 =>
    cases h
    exact ⟨rfl, rfl⟩
  case h_2 ghosts _ =>
    split at h
    case h_1 => cases h
    case h_2 wrapper_edges _ =>
      refine foldlM_invariant (P := fun state : SharedProgress TInner × Extraction TInner =>
        state.1.frontiers = before.1.frontiers ∧
          state.1.wrapper_frontiers = before.1.wrapper_frontiers) ⟨rfl, rfl⟩ ?_ h
      intro state ghost next _ hstate hstep
      unfold extract_ghost at hstep
      split at hstep
      case h_1 =>
        obtain ⟨extraction, _, rfl⟩ := Option.map_eq_some_iff.mp hstep
        exact hstate
      case h_2 => cases hstep

/-- Extracting leaves the operator and its frontier changes alone, those of its ghosts too. -/
theorem extract_progress_cases {child extracted : PerOperatorState O S TInner}
    {wrapper_ghost : AList fun _ : ℕ => List ℕ} {wrapper_ghost_edges : AList fun _ : ℕ => List (ℕ × ℕ)}
    {before after : Extraction TInner}
    (h : child.extract_progress wrapper_ghost wrapper_ghost_edges before = some (extracted, after)) :
    extracted.operator = child.operator ∧
      extracted.shared_progress.frontiers = child.shared_progress.frontiers ∧
      extracted.shared_progress.wrapper_frontiers = child.shared_progress.wrapper_frontiers := by
  unfold PerOperatorState.extract_progress at h
  obtain ⟨wrapped, hwrapped, h⟩ := Option.bind_eq_some_iff.mp h
  obtain ⟨extraction, _, heq⟩ := Option.map_eq_some_iff.mp h
  obtain ⟨rfl, -⟩ := Prod.mk.inj heq
  exact ⟨rfl, frontiers_extract_wrapper hwrapped⟩

/-- Reviewing keeps a child, or shuts it down when nothing is left for it. -/
theorem review_child_cases {incomplete : Bool} {child reviewed : PerOperatorState O S TInner}
    (h : subgraph.review_child child_index incomplete child = some reviewed) :
    reviewed = child ∨ (reviewed = child.shut_down ∧ subgraph.Closed child_index) := by
  unfold review_child at h
  split at h
  case h_1 => cases h
  case h_2 child_state hstate =>
    split at h
    · obtain ⟨-, _, rfl⟩ := Option.map_eq_some_iff.mp h
      exact Or.inl rfl
    · split at h
      case isTrue hleft =>
        cases h
        exact Or.inr ⟨rfl, closed_of_nothing_left hstate (Bool.and_eq_true_iff.mp hleft).2⟩
      case isFalse =>
        cases h
        exact Or.inl rfl

variable [Operate O TInner]

/-- Scheduling a guarded child leaves no frontier change, and an operator that drains or none as before. -/
theorem Guarded.schedule (hdrains : Drains draining) (h : Guarded draining subgraph child_index)
    {child scheduled : PerOperatorState O S TInner} {incomplete : Bool}
    (hchild : subgraph.children[child_index]? = some child)
    (hschedule : child.schedule = some (incomplete, scheduled)) :
    AllEmpty scheduled.shared_progress.frontiers ∧
      (∀ operator, scheduled.operator = some operator → draining operator) ∧
      (scheduled.operator = none → subgraph.Closed child_index) := by
  unfold PerOperatorState.schedule at hschedule
  split at hschedule
  case h_1 operator hoperator =>
    obtain ⟨⟨flag, after, read⟩, houtcome, heq⟩ := Option.map_eq_some_iff.mp hschedule
    obtain ⟨-, rfl⟩ := Prod.mk.inj heq
    obtain ⟨hafter, hread⟩ := hdrains.schedule (h.drains hchild hoperator) houtcome
    refine ⟨hread, fun other hother => ?_, fun hnone => ?_⟩
    · cases hother
      exact hafter
    · cases hnone
  case h_2 hnone =>
    split at hschedule
    · cases hschedule
    · cases hschedule
      obtain ⟨hempty, hclosed⟩ := h.closed hchild hnone
      refine ⟨fun changes hchanges => ?_, fun operator hoperator => ?_, fun _ => hclosed⟩
      · obtain ⟨before, hbefore, rfl⟩ := List.mem_map.mp hchanges
        exact (is_empty_of_updates (hempty before hbefore)).2
      · rw [hnone] at hoperator
        cases hoperator

theorem Guarded.activate_child (hdrains : Drains draining) (h : Guarded draining subgraph child_index)
    {other : ℕ} {flag : Bool} (hactivate : subgraph.activate_child other = some (flag, after)) :
    Guarded draining after child_index := by
  have htracker := (untracked_of_activate_child hactivate).tracker
  have hclosed : subgraph.Closed child_index → after.Closed child_index := by
    intro hbefore port
    rw [htracker]
    exact hbefore port
  obtain ⟨child, scheduled, reviewed, counted, hactivated⟩ := activated_of_activate_child hactivate
  obtain ⟨incomplete, incomplete_count, rfl⟩ := set_incomplete_cases hactivated.count
  obtain ⟨⟨extracted, extraction⟩, hextracted, rfl⟩ := Option.map_eq_some_iff.mp hactivated.extract
  obtain ⟨hoperator, hfrontiers, -⟩ := extract_progress_cases hextracted
  by_cases hother : child_index = other
  · subst hother
    obtain ⟨hempty, hdraining, hnothing⟩ := h.schedule hdrains hactivated.child_eq hactivated.schedule
    have hlength := (List.getElem?_eq_some_iff.mp hactivated.child_eq).1
    have hfound : ∀ {found}, (subgraph.children.set child_index extracted)[child_index]? = some found →
        found = extracted := by
      intro found heq
      rw [List.getElem?_set_self hlength] at heq
      exact (Option.some.inj heq).symm
    refine ⟨fun hchild hsome => ?_, fun hchild hnone => ?_⟩
    · obtain rfl := hfound hchild
      rw [hoperator] at hsome
      rcases review_child_cases hactivated.review with rfl | ⟨rfl, -⟩
      · exact hdraining _ hsome
      · cases hsome
    · obtain rfl := hfound hchild
      rw [hoperator] at hnone
      rw [hfrontiers]
      rcases review_child_cases hactivated.review with rfl | ⟨rfl, hleft⟩
      · exact ⟨hempty, hclosed (hnothing hnone)⟩
      · exact ⟨hempty, hclosed hleft⟩
  · refine h.congr ?_ hclosed
    exact List.getElem?_set_ne (Ne.symm hother)

/-! ### Propagating -/

variable [PathSummary S TInner] {topology : Builder S}

/-- Where nothing could arrive, and cannot, nothing is pushed. -/
theorem AtRest.untouched (h : AtRest topology subgraph) (hghost : subgraph.ghost_wrapper = ∅)
    (hpropagates : subgraph.Propagates after) (hbefore : subgraph.Closed child_index)
    (hafter : after.Closed child_index) :
    after.children[child_index]? = subgraph.children[child_index]? := by
  obtain ⟨committed, propagated, delivered, hstages⟩ := hpropagates.stages
  have hcommitted := committed_of_commit_pointstamps hstages.commit
  have hdelivered := delivered_of_deliver_changes hstages.deliver
  have hreported := reported_of_report_outputs hstages.report
  have hvalue : ∀ port time,
      propagated.pointstamp_tracker.pushed_changes.value (Location.new_target child_index port, time) = 0 := by
    intro port time
    rw [hstages.pushed_value h.quiet h.pushed, ← hstages.same.implications_at, hafter port,
      hbefore port]
    rfl
  have hnone : ∀ change ∈ propagated.pointstamp_tracker.pushed_changes.drain.1, ∀ port,
      change.1.1 ≠ Location.new_target child_index port := by
    rintro ⟨⟨location, time⟩, diff⟩ hchange port rfl
    have htally := tally_of_mem_of_nodup (ChangeBatch.compact_nodup_keys _) hchange
    rw [ChangeBatch.tally_compact, hvalue] at htally
    exact (hstages.nonZero h.quiet h.pushed).compact _ hchange htally.symm
  have hwrappers : propagated.ghost_wrapper = ∅ := by
    rw [hstages.propagated_eq]
    exact hcommitted.wrappers.1.trans hghost
  rw [hreported.children, hdelivered.untouched hwrappers child_index hnone, hstages.propagated_eq]
  exact congrArg (fun children : List (PerOperatorState O S TInner) => children[child_index]?)
    hcommitted.children

/-- A child that has no operator stays as it is when nothing may arrive any more. -/
theorem Guarded.propagates (h : Guarded draining subgraph child_index) (hrest : AtRest topology subgraph)
    (hghost : subgraph.ghost_wrapper = ∅) (hpropagates : subgraph.Propagates after)
    (hclosed : subgraph.Closed child_index → after.Closed child_index) :
    Guarded draining after child_index := by
  obtain ⟨committed, propagated, delivered, hstages⟩ := hpropagates.stages
  have hcommitted := committed_of_commit_pointstamps hstages.commit
  have hdelivered := delivered_of_deliver_changes hstages.deliver
  have hreported := reported_of_report_outputs hstages.report
  have hoperator : (after.children[child_index]?).map PerOperatorState.operator =
      (subgraph.children[child_index]?).map PerOperatorState.operator := by
    rw [hreported.children, hdelivered.operator, hstages.propagated_eq, ← hcommitted.children]
  cases hbefore : subgraph.children[child_index]? with
  | none =>
    rw [hbefore] at hoperator
    have hafter := Option.map_eq_none_iff.mp hoperator
    refine ⟨fun hchild => ?_, fun hchild => ?_⟩
    · rw [hafter] at hchild
      cases hchild
    · rw [hafter] at hchild
      cases hchild
  | some child =>
    rw [hbefore] at hoperator
    obtain ⟨changed, hchanged, hsame⟩ := Option.map_eq_some_iff.mp hoperator
    refine ⟨fun hchild hsome => ?_, fun hchild hnone => ?_⟩
    · obtain rfl := Option.some.inj (hchanged.symm.trans hchild)
      rw [hsame] at hsome
      exact h.drains hbefore hsome
    · obtain rfl := Option.some.inj (hchanged.symm.trans hchild)
      rw [hsame] at hnone
      obtain ⟨hempty, hshut⟩ := h.closed hbefore hnone
      have huntouched := hrest.untouched hghost hpropagates hshut (hclosed hshut)
      rw [hchild, hbefore] at huntouched
      obtain rfl := Option.some.inj huntouched
      exact ⟨hempty, hclosed hshut⟩

/-- Every step keeps a child guarded, if at its inputs nothing appears again. -/
theorem Guarded.step (hdrains : Drains draining) (h : Guarded draining subgraph child_index)
    (hrest : AtRest topology subgraph) (hghost : subgraph.ghost_wrapper = ∅)
    {event : ScopeEvent TOuter TInner} (hscheduled : event.Scheduled)
    (hstep : ScopeStep subgraph event after)
    (hclosed : subgraph.Closed child_index → after.Closed child_index) :
    Guarded draining after child_index := by
  cases hstep with
  | propagate_pointstamps hpropagates => exact h.propagates hrest hghost hpropagates hclosed
  | outer_frontier _ => exact h.congr rfl hclosed
  | accept_frontier => exact h.congr rfl hclosed
  | enter _ => exact h.congr rfl hclosed
  | harvest_inputs hharvest =>
    obtain ⟨pointstamps, rfl⟩ := harvest_inputs_cases hharvest
    exact h.congr rfl hclosed
  | receive => exact absurd hscheduled id
  | express_child _ => exact absurd hscheduled id
  | @set_child_external_summary _ other hset =>
    obtain ⟨child, changed, hchild, hchanged, rfl⟩ := modify_child_cases hset
    by_cases hother : child_index = other
    · subst hother
      have hlength := (List.getElem?_eq_some_iff.mp hchild).1
      cases hoperator : child.operator with
      | none =>
        rw [hoperator] at hchanged
        cases hchanged
        refine h.congr ?_ hclosed
        exact (List.getElem?_set_self hlength).trans hchild.symm
      | some operator =>
        rw [hoperator] at hchanged
        obtain ⟨⟨told, read⟩, houtcome, rfl⟩ := Option.map_eq_some_iff.mp hchanged
        have htold := hdrains.set_external_summary (h.drains hchild hoperator) houtcome
        refine ⟨fun hfound hsome => ?_, fun hfound hnone => ?_⟩
        · obtain rfl := Option.some.inj ((List.getElem?_set_self hlength).symm.trans hfound)
          cases hsome
          exact htold
        · obtain rfl := Option.some.inj ((List.getElem?_set_self hlength).symm.trans hfound)
          cases hnone
    · refine h.congr ?_ hclosed
      exact List.getElem?_set_ne (Ne.symm hother)
  | activate_child hactivate => exact h.activate_child hdrains hactivate
  | send_progress _ => exact absurd hscheduled id
  | extract_progress => exact h.congr rfl hclosed

end Subgraph

/-! ### Runs -/

namespace Cluster

variable {peers : ℕ} {O S TOuter TInner : Type}
  [PartialOrder TOuter] [DecidableLE TOuter] [DecidableEq TOuter] [Ord TOuter]
  [LinearExtension TOuter]
  [PartialOrder TInner] [DecidableLE TInner] [DecidableEq TInner] [Ord TInner]
  [LinearExtension TInner] [Refines TOuter TInner] [PathSummary S TInner]
  [PartialOrder S] [DecidableLE S] [Operate O TInner] {draining : O → Prop}
  {topology : Builder S} {granted : Location × TInner →₀ ℤ}
  {builders : Fin peers → SubgraphBuilder O S TOuter TInner}
  {starts : Fin peers → Subgraph O S TOuter TInner} {after : Cluster peers O S TOuter TInner}
  {situation later : Situation peers O S TOuter TInner}

/-- A worker without wrappers, one of whose children drains or has been shut down. -/
structure Watches (draining : O → Prop) (subgraph : Subgraph O S TOuter TInner) (child_index : ℕ) :
    Prop where
  wrappers : subgraph.ghost_wrapper = ∅
  guarded : Subgraph.Guarded draining subgraph child_index

theorem Watches.step (hdrains : Subgraph.Drains draining) (hsound : Sound topology granted situation)
    {worker : Fin peers} {child_index : ℕ} (h : Watches draining (situation.cluster.workers worker) child_index)
    {event : Event peers TOuter TInner} (hstep : Step situation.cluster event after)
    (hclosed : (situation.cluster.workers worker).Closed child_index → (after.workers worker).Closed child_index) :
    Watches draining (after.workers worker) child_index := by
  rcases hstep.worker_cases worker with ⟨own, hscheduled, hscope⟩ | ⟨left, final, hworker⟩
  · refine ⟨?_, h.guarded.step hdrains (hsound.accounts.atRest worker) h.wrappers hscheduled hscope
      hclosed⟩
    rcases hscope.framed with hframed | ⟨other, flag, _, hactivate⟩
    · exact hframed.ghost_wrapper.trans h.wrappers
    · exact (Subgraph.untracked_of_activate_child hactivate).wrappers.1.trans h.wrappers
  · rw [hworker]
    exact ⟨h.wrappers, h.guarded.congr rfl id⟩

/-- An empty frontier stays empty. -/
theorem closed_later (hadvances : topology.Advances TInner)
    (hstarted : Started topology granted builders starts) {moves more : List (Move peers TOuter TInner)}
    (hrun : Run (DisciplinedStep topology granted) (begin_with starts) moves situation)
    (hmore : Run (DisciplinedStep topology granted) situation more later) {worker : Fin peers}
    {child_index : ℕ} (hclosed : (situation.cluster.workers worker).Closed child_index) :
    (later.cluster.workers worker).Closed child_index := by
  intro port
  refine List.eq_nil_iff_forall_not_mem.mpr fun time htime => ?_
  obtain ⟨least, hleast, -⟩ := frontiers_advance hadvances hstarted hrun hmore worker htime
  have hnone : situation.cluster.frontier_of worker (Location.new_target child_index port) = [] := hclosed port
  rw [hnone] at hleast
  exact List.not_mem_nil hleast

theorem Watches.moves (hdrains : Subgraph.Drains draining) (hsound : Sound topology granted situation)
    {worker : Fin peers} {child_index : ℕ}
    (h : Watches draining (situation.cluster.workers worker) child_index) {move : Move peers TOuter TInner}
    (hmoves : situation.Moves move later)
    (hclosed : (situation.cluster.workers worker).Closed child_index →
      (later.cluster.workers worker).Closed child_index) :
    Watches draining (later.cluster.workers worker) child_index := by
  cases hmoves with
  | perform performer node changes => exact h
  | event hstep => exact h.step hdrains hsound hstep hclosed

theorem Watches.run (hadvances : topology.Advances TInner)
    (hstarted : Started topology granted builders starts) (hdrains : Subgraph.Drains draining)
    {moves more : List (Move peers TOuter TInner)}
    (hrun : Run (DisciplinedStep topology granted) (begin_with starts) moves situation)
    {worker : Fin peers} {child_index : ℕ}
    (h : Watches draining (situation.cluster.workers worker) child_index)
    (hmore : Run (DisciplinedStep topology granted) situation more later) :
    Watches draining (later.cluster.workers worker) child_index := by
  have hboth : Run (DisciplinedStep topology granted) situation more later ∧
      Watches draining (later.cluster.workers worker) child_index := by
    refine hmore.invariant (P := fun more later => Run (DisciplinedStep topology granted) situation more later ∧
      Watches draining (later.cluster.workers worker) child_index) ⟨Run.nil, h⟩ ?_
    rintro more before move after ⟨hbefore, hwatches⟩ hstep
    have hreached := hrun.append hbefore
    refine ⟨hbefore.snoc hstep, hwatches.moves hdrains (hstarted.sound.run hadvances hreached) hstep.1 ?_⟩
    exact closed_later hadvances hstarted hreached (Run.nil.snoc hstep)
  exact hboth.2

/-- A child that has been shut down is watched as one that has no operator. -/
theorem Watches.shut_down {subgraph : Subgraph O S TOuter TInner} {child_index : ℕ}
    (h : Watches draining subgraph child_index) {child : PerOperatorState O S TInner}
    (hchild : subgraph.children[child_index]? = some child) (hnone : child.operator = none) :
    Watches (fun _ => False) subgraph child_index := by
  refine ⟨h.wrappers, ⟨fun hfound hsome => ?_, h.guarded.closed⟩⟩
  obtain rfl := Option.some.inj (hchild.symm.trans hfound)
  rw [hnone] at hsome
  cases hsome

/-- In graphs whose summaries advance timestamps, frontiers never retreat in a disciplined run, and
    shutting down is final: a child that drains its frontier changes is never found to be
    shut down prematurely, and when it has been shut down there is no frontier change for it in any later
    state. -/
theorem frontiers_advance_and_shut_down_is_final (hadvances : topology.Advances TInner)
    (hstarted : Started topology granted builders starts) (hdrains : Subgraph.Drains draining)
    {moves more : List (Move peers TOuter TInner)}
    (hrun : Run (DisciplinedStep topology granted) (begin_with starts) moves situation)
    (hmore : Run (DisciplinedStep topology granted) situation more later) (worker : Fin peers) :
    (∀ location, ∀ time ∈ later.cluster.frontier_of worker location,
      Covers (situation.cluster.frontier_of worker) location time) ∧
    ∀ (child_index : ℕ) (child found : PerOperatorState O S TInner) (operator : O),
      (starts worker).ghost_wrapper = ∅ → (starts worker).children[child_index]? = some child →
      child.operator = some operator → draining operator →
      (situation.cluster.workers worker).children[child_index]? = some found →
        found.prematurely_shut_down = false ∧
        (found.operator = none → ∀ last : PerOperatorState O S TInner,
          (later.cluster.workers worker).children[child_index]? = some last →
            last.operator = none ∧ AllEmpty last.shared_progress.frontiers) := by
  refine ⟨fun location time htime => frontiers_advance hadvances hstarted hrun hmore worker htime, ?_⟩
  intro child_index child found operator hghost hchild hoperator hdraining hfound
  have hstart : Watches draining ((begin_with starts).cluster.workers worker) child_index := by
    refine ⟨hghost, ⟨fun hother hsome => ?_, fun hother hnone => ?_⟩⟩
    · obtain rfl := Option.some.inj (hchild.symm.trans hother)
      obtain rfl := Option.some.inj (hoperator.symm.trans hsome)
      exact hdraining
    · obtain rfl := Option.some.inj (hchild.symm.trans hother)
      rw [hoperator] at hnone
      cases hnone
  have hwatches := hstart.run hadvances hstarted hdrains Run.nil hrun
  refine ⟨hwatches.guarded.not_prematurely_shut_down hfound, fun hnone last hlast => ?_⟩
  have hafter := (hwatches.shut_down hfound hnone).run hadvances hstarted Subgraph.Drains.no_operator hrun hmore
  have hshut : last.operator = none := by
    refine Option.eq_none_iff_forall_ne_some.mpr fun other hsome => ?_
    exact hafter.guarded.drains hlast hsome
  exact ⟨hshut, (hafter.guarded.closed hlast hshut).1⟩

/-! ### Examples -/

theorem drains_script {T : Type} [PartialOrder T] [DecidableLE T] [DecidableEq T] [Ord T]
    [LinearExtension T] : @Subgraph.Drains (Script T) T _ _ fun _ => True := by
  have hdrained : ∀ batches : List (ChangeBatch T), AllEmpty (drained batches) := by
    intro batches changes hchanges
    obtain ⟨batch, -, rfl⟩ := List.mem_map.mp hchanges
    rfl
  refine ⟨fun {script after shared read incomplete} _ h => ⟨trivial, ?_⟩, fun _ _ => trivial⟩
  obtain ⟨entries⟩ := script
  cases entries with
  | nil =>
    cases h
    exact hdrained _
  | cons entry entries =>
    cases h
    exact hdrained _

/-- Both workers drop their capability. -/
def closing_builders (_ : Fin 2) :
    SubgraphBuilder (Script (Unsigned 64)) (Unsigned 64) (Unsigned 64) (Unsigned 64) :=
  example_builder [⟨[], [[(0, -1)]], [[]]⟩]

def closing_build (worker : Fin 2) :
    Option (Subgraph (Script (Unsigned 64)) (Unsigned 64) (Unsigned 64) (Unsigned 64)) :=
  (closing_builders worker).build IterationOrder.listed true 20

theorem closing_builds : ∀ worker, (closing_build worker).isSome := by decide

def closing_built (worker : Fin 2) :
    Subgraph (Script (Unsigned 64)) (Unsigned 64) (Unsigned 64) (Unsigned 64) :=
  (closing_build worker).get (closing_builds worker)

theorem closing_initializes : ∀ worker, ((closing_built worker).get_internal_summary 20).isSome := by
  decide

def closing_starts (worker : Fin 2) :
    Subgraph (Script (Unsigned 64)) (Unsigned 64) (Unsigned 64) (Unsigned 64) :=
  ((closing_built worker).get_internal_summary 20).get (closing_initializes worker)

def closing_topology : Builder (Unsigned 64) := (closing_starts ⟨0, Nat.zero_lt_two⟩).pointstamp_tracker.builder

theorem closing_started :
    Started closing_topology (collect example_granted) closing_builders closing_starts := by
  refine Started.of_expressed (fun worker => (Option.some_get (closing_builds worker)).symm) ?_
    (fun worker => (Option.some_get (closing_initializes worker)).symm) (by decide) (by decide)
    (Fin.forall_fin_two.mpr ⟨rfl, rfl⟩) (by decide) (by decide)
  decide

/-- Worker one learns that nothing is left for the second child, and shuts it down. -/
def closing_events : List (Event 2 (Unsigned 64) (Unsigned 64)) :=
  [.scope ⟨0, Nat.zero_lt_two⟩ (.activate_child 1), .scope ⟨1, Nat.one_lt_two⟩ (.activate_child 1),
    .send ⟨0, Nat.zero_lt_two⟩ fun _ => none, .send ⟨1, Nat.one_lt_two⟩ fun _ => none,
    .recv ⟨1, Nat.one_lt_two⟩ [⟨0, Nat.zero_lt_two⟩, ⟨1, Nat.one_lt_two⟩],
    .scope ⟨1, Nat.one_lt_two⟩ .propagate_pointstamps, .scope ⟨1, Nat.one_lt_two⟩ (.activate_child 2)]

theorem closing_performs : ((closing_events.map Move.event).foldlM
    (perform_disciplined 20 closing_topology example_granted) (begin_with closing_starts)).isSome := by
  decide

def closing_last : Situation 2 (Script (Unsigned 64)) (Unsigned 64) (Unsigned 64) (Unsigned 64) :=
  ((closing_events.map Move.event).foldlM (perform_disciplined 20 closing_topology example_granted)
    (begin_with closing_starts)).get closing_performs

theorem closing_run : Run (DisciplinedStep closing_topology (collect example_granted))
    (begin_with closing_starts) (closing_events.map Move.event) closing_last :=
  run_of_perform_disciplined closing_started.initialized (Option.some_get closing_performs).symm

/-- Both workers activate the child again, worker zero after it has been told of what it has done. -/
def closing_more : List (Event 2 (Unsigned 64) (Unsigned 64)) :=
  [.recv ⟨0, Nat.zero_lt_two⟩ [⟨0, Nat.zero_lt_two⟩], .scope ⟨0, Nat.zero_lt_two⟩ .propagate_pointstamps,
    .scope ⟨0, Nat.zero_lt_two⟩ (.activate_child 2), .scope ⟨1, Nat.one_lt_two⟩ .propagate_pointstamps,
    .scope ⟨1, Nat.one_lt_two⟩ (.activate_child 2)]

theorem closing_more_performs : ((closing_more.map Move.event).foldlM
    (perform_disciplined 20 closing_topology example_granted) closing_last).isSome := by
  decide

def closing_later : Situation 2 (Script (Unsigned 64)) (Unsigned 64) (Unsigned 64) (Unsigned 64) :=
  ((closing_more.map Move.event).foldlM (perform_disciplined 20 closing_topology example_granted) closing_last).get
    closing_more_performs

theorem closing_later_run : Run (DisciplinedStep closing_topology (collect example_granted))
    closing_last (closing_more.map Move.event) closing_later :=
  later_of_perform_disciplined closing_started.initialized closing_run
    (Option.some_get closing_more_performs).symm

theorem shut_down_is_final_example :
    ∃ found later, (closing_last.cluster.workers 1).children[2]? = some found ∧ found.operator = none ∧
      (closing_later.cluster.workers 1).children[2]? = some later ∧
      found.prematurely_shut_down = false ∧ later.operator = none ∧
      AllEmpty later.shared_progress.frontiers := by
  have hstart : (((closing_starts 1).children[2]?).bind PerOperatorState.operator).isSome := by decide
  have hshut : ((closing_last.cluster.workers 1).children[2]?).map (fun child => child.operator.isNone) =
      some true := by decide
  have hstays : ((closing_later.cluster.workers 1).children[2]?).isSome := by decide
  obtain ⟨operator, hbound⟩ := Option.isSome_iff_exists.mp hstart
  obtain ⟨child, hchild, hoperator⟩ := Option.bind_eq_some_iff.mp hbound
  obtain ⟨found, hfound, hnone⟩ := Option.map_eq_some_iff.mp hshut
  obtain ⟨later, hlater⟩ := Option.isSome_iff_exists.mp hstays
  have hfinal := (frontiers_advance_and_shut_down_is_final closing_topology.advances closing_started
    drains_script closing_run closing_later_run 1).2 2 child found operator rfl hchild hoperator trivial
    hfound
  have hgone := Option.isNone_iff_eq_none.mp hnone
  exact ⟨found, later, hfound, hgone, hlater, hfinal.1, hfinal.2 hgone later hlater⟩

/-- Worker one has shut down the last operator, and then receives the message for the one before. -/
def signed_more : List (Event 2 (Signed 8) (Signed 8)) :=
  [.scope ⟨1, Nat.one_lt_two⟩ (.activate_child 3), .send ⟨0, Nat.zero_lt_two⟩ fun _ => none,
    .recv ⟨1, Nat.one_lt_two⟩ [⟨0, Nat.zero_lt_two⟩], .scope ⟨1, Nat.one_lt_two⟩ .propagate_pointstamps]

theorem signed_more_performs : ((signed_more.map Move.event).foldlM
    (perform_disciplined 20 signed_topology signed_granted) signed_last).isSome := by
  decide

def signed_later : Situation 2 (Script (Signed 8)) (Signed 8) (Signed 8) (Signed 8) :=
  ((signed_more.map Move.event).foldlM (perform_disciplined 20 signed_topology signed_granted) signed_last).get
    signed_more_performs

/-- The operator may produce a message at minus one, and the frontier goes back from nothing to this time:
    the last operator is told after it has been shut down. -/
theorem shut_down_child_is_told :
    Started signed_topology (collect signed_granted) signed_builders signed_starts ∧
    @Subgraph.Drains (Script (Signed 8)) (Signed 8) _ _ (fun _ => True) ∧
    Run (DisciplinedStep signed_topology (collect signed_granted)) (begin_with signed_starts)
      (signed_events.map Move.event) signed_last ∧
    Run (DisciplinedStep signed_topology (collect signed_granted)) signed_last
      (signed_more.map Move.event) signed_later ∧
    (signed_starts 1).ghost_wrapper = ∅ ∧
    (((signed_starts 1).children[3]?).bind PerOperatorState.operator).isSome ∧
    Subgraph.minus_one ∈ signed_later.cluster.frontier_of 1 (Location.new_target 3 0) ∧
    ¬ Covers (signed_last.cluster.frontier_of 1) (Location.new_target 3 0) Subgraph.minus_one ∧
    ((signed_later.cluster.workers 1).children[3]?).map PerOperatorState.prematurely_shut_down = some true := by
  refine ⟨signed_started, drains_script, signed_run, ?_, rfl, by decide, by decide, ?_, by decide⟩
  · exact later_of_perform_disciplined signed_started.initialized signed_run
      (Option.some_get signed_more_performs).symm
  · rintro ⟨least, hleast, -⟩
    have hnone : signed_last.cluster.frontier_of 1 (Location.new_target 3 0) = [] := by decide
    rw [hnone] at hleast
    exact List.not_mem_nil hleast

end Cluster

end Timely
