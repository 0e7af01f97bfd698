/-
  Timely/SubgraphFrame.lean
  =========================
  **What the steps of a scope leave alone.**

  No step changes how children are connected or what stands for what, and only
  activating a child changes which children count as incomplete.
-/
import Timely.Internals

set_option linter.unusedSectionVars false

namespace Timely

open Library

/-- The parts of a child that are fixed once the subgraph has been built. -/
def PerOperatorState.fixed {O S T : Type} [Ord T] (child : PerOperatorState O S T) :
    PerOperatorState O S T :=
  { child with operator := none, shared_progress := SharedProgress.new 0 0 }

namespace Subgraph

variable {O S TOuter TInner : Type}
  [PartialOrder TOuter] [DecidableLE TOuter] [DecidableEq TOuter] [Ord TOuter]
  [LinearExtension TOuter]
  [PartialOrder TInner] [DecidableLE TInner] [DecidableEq TInner] [Ord TInner]
  [LinearExtension TInner] [Refines TOuter TInner]

/-- Two states that agree on what is fixed, and on the flags of the children. -/
structure Framed (subgraph after : Subgraph O S TOuter TInner) : Prop where
  incomplete : after.incomplete = subgraph.incomplete
  incomplete_count : after.incomplete_count = subgraph.incomplete_count
  children : after.children.map PerOperatorState.fixed = subgraph.children.map PerOperatorState.fixed
  wrapper_ghost : after.wrapper_ghost = subgraph.wrapper_ghost
  ghost_wrapper : after.ghost_wrapper = subgraph.ghost_wrapper
  wrapper_ghost_edges : after.wrapper_ghost_edges = subgraph.wrapper_ghost_edges

theorem Framed.refl (subgraph : Subgraph O S TOuter TInner) : Framed subgraph subgraph :=
  ⟨rfl, rfl, rfl, rfl, rfl, rfl⟩

theorem Framed.trans {first second third : Subgraph O S TOuter TInner} (h : Framed first second)
    (h' : Framed second third) : Framed first third where
  incomplete := h'.incomplete.trans h.incomplete
  incomplete_count := h'.incomplete_count.trans h.incomplete_count
  children := h'.children.trans h.children
  wrapper_ghost := h'.wrapper_ghost.trans h.wrapper_ghost
  ghost_wrapper := h'.ghost_wrapper.trans h.ghost_wrapper
  wrapper_ghost_edges := h'.wrapper_ghost_edges.trans h.wrapper_ghost_edges

theorem Framed.of_modify_child {subgraph after : Subgraph O S TOuter TInner} {index : ℕ}
    {change : PerOperatorState O S TInner → Option (PerOperatorState O S TInner)}
    (hchange : ∀ {child changed}, change child = some changed → changed.fixed = child.fixed)
    (h : subgraph.modify_child index change = some after) : Framed subgraph after := by
  obtain ⟨child, changed, hchild, hchanged, rfl⟩ := modify_child_cases h
  exact ⟨rfl, rfl, map_set_of_eq hchild (hchange hchanged), rfl, rfl, rfl⟩

/-! ### Propagating -/

theorem framed_commit_pointstamp {subgraph after : Subgraph O S TOuter TInner}
    {change : (Location × TInner) × ℤ} (h : subgraph.commit_pointstamp change = some after) :
    Framed subgraph after := by
  obtain ⟨⟨location, time⟩, delta⟩ := change
  simp only [commit_pointstamp] at h
  split at h
  · split at h
    all_goals
      obtain ⟨batches, _, rfl⟩ := Option.map_eq_some_iff.mp h
      exact ⟨rfl, rfl, rfl, rfl, rfl, rfl⟩
  · cases h
    exact ⟨rfl, rfl, rfl, rfl, rfl, rfl⟩

theorem fixed_push_frontier {port : ℕ} {time : TInner} {diff : ℤ}
    {child changed : PerOperatorState O S TInner} (h : push_frontier port time diff child = some changed) :
    changed.fixed = child.fixed := by
  obtain ⟨frontiers, _, rfl⟩ := Option.map_eq_some_iff.mp h
  rfl

theorem fixed_push_wrapper_frontier {ghost port : ℕ} {time : TInner} {diff : ℤ}
    {child changed : PerOperatorState O S TInner}
    (h : push_wrapper_frontier ghost port time diff child = some changed) :
    changed.fixed = child.fixed := by
  unfold push_wrapper_frontier at h
  split at h
  case h_1 => cases h
  case h_2 =>
    obtain ⟨frontiers, _, rfl⟩ := Option.map_eq_some_iff.mp h
    rfl

theorem framed_deliver_change {state next : Subgraph O S TOuter TInner × Bool}
    {change : (Location × TInner) × ℤ} (h : deliver_change state change = some next) :
    Framed state.1 next.1 := by
  obtain ⟨⟨⟨node, port⟩, time⟩, diff⟩ := change
  cases port with
  | source port =>
    cases h
    exact Framed.refl _
  | target port =>
    simp only [deliver_change] at h
    split at h
    case h_1 => cases h
    case h_2 child hchild =>
      -- the activations that come with a change are not part of the frame
      have hactive : ∀ active, Framed state.1 { state.1 with temp_active := active } :=
        fun _ => ⟨rfl, rfl, rfl, rfl, rfl, rfl⟩
      split at h
      case h_1 wrapper _ =>
        obtain ⟨changed, hmodified, rfl⟩ := Option.map_eq_some_iff.mp h
        exact (hactive _).trans (Framed.of_modify_child fixed_push_wrapper_frontier hmodified)
      case h_2 =>
        obtain ⟨changed, hmodified, rfl⟩ := Option.map_eq_some_iff.mp h
        exact (hactive _).trans (Framed.of_modify_child fixed_push_frontier hmodified)

theorem framed_report_output {subgraph after : Subgraph O S TOuter TInner} {output : ℕ}
    (h : subgraph.report_output output = some after) : Framed subgraph after := by
  unfold report_output at h
  split at h
  case h_1 =>
    cases h
    exact ⟨rfl, rfl, rfl, rfl, rfl, rfl⟩
  case h_2 => cases h

theorem framed_propagates [PathSummary S TInner] {subgraph after : Subgraph O S TOuter TInner}
    (h : subgraph.Propagates after) : Framed subgraph after := by
  obtain ⟨committed, propagated, delivered, hstages⟩ := h.stages
  have hcommitted : Framed subgraph committed := by
    have hcommit := hstages.commit
    unfold commit_pointstamps at hcommit
    refine foldlM_invariant (P := fun middle => Framed subgraph middle) ?_ ?_ hcommit
    · exact ⟨rfl, rfl, rfl, rfl, rfl, rfl⟩
    · exact fun _ hbefore hstep => hbefore.trans (framed_commit_pointstamp hstep)
  have hpropagated : Framed committed propagated := by
    rw [hstages.propagated_eq]
    exact ⟨rfl, rfl, rfl, rfl, rfl, rfl⟩
  have hdelivered : Framed propagated delivered := by
    obtain ⟨⟨last, flag⟩, hfold, rfl⟩ := Option.map_eq_some_iff.mp hstages.deliver
    refine foldlM_invariant (P := fun state : Subgraph O S TOuter TInner × Bool =>
      Framed propagated state.1) ?_ ?_ hfold
    · exact ⟨rfl, rfl, rfl, rfl, rfl, rfl⟩
    · exact fun _ hbefore hstep => hbefore.trans (framed_deliver_change hstep)
  have hreported : Framed delivered after := by
    have hreport := hstages.report
    unfold report_outputs at hreport
    refine foldlM_invariant (P := fun middle => Framed delivered middle) (Framed.refl _) ?_ hreport
    exact fun _ hbefore hstep => hbefore.trans (framed_report_output hstep)
  exact ((hcommitted.trans hpropagated).trans hdelivered).trans hreported

/-! ### Extracting -/

theorem fixed_extract_progress {child extracted : PerOperatorState O S TInner}
    {wrapper_ghost : AList fun _ : ℕ => List ℕ} {wrapper_ghost_edges : AList fun _ : ℕ => List (ℕ × ℕ)}
    {before after : Extraction TInner}
    (h : child.extract_progress wrapper_ghost wrapper_ghost_edges before = some (extracted, after)) :
    extracted.fixed = child.fixed := by
  unfold PerOperatorState.extract_progress at h
  obtain ⟨wrapped, _, h⟩ := Option.bind_eq_some_iff.mp h
  obtain ⟨extraction, _, heq⟩ := Option.map_eq_some_iff.mp h
  obtain ⟨rfl, -⟩ := Prod.mk.inj heq
  rfl

theorem framed_express_child {subgraph after : Subgraph O S TOuter TInner} {child_index : ℕ}
    (h : subgraph.express_child child_index = some after) : Framed subgraph after := by
  unfold express_child at h
  split at h
  case h_1 => cases h
  case h_2 child hchild =>
    split at h
    · cases h
      exact Framed.refl _
    · obtain ⟨extracted, hextracted, rfl⟩ := Option.map_eq_some_iff.mp h
      exact ⟨rfl, rfl, map_set_of_eq hchild (fixed_extract_progress hextracted), rfl, rfl, rfl⟩

theorem fixed_schedule [Operate O TInner] {child scheduled : PerOperatorState O S TInner} {flag : Bool}
    (h : child.schedule = some (flag, scheduled)) : scheduled.fixed = child.fixed := by
  unfold PerOperatorState.schedule at h
  split at h
  · obtain ⟨outcome, _, heq⟩ := Option.map_eq_some_iff.mp h
    obtain ⟨-, rfl⟩ := Prod.mk.inj heq
    rfl
  · split at h
    · cases h
    · cases h
      rfl

theorem fixed_review_child {subgraph : Subgraph O S TOuter TInner} {child_index : ℕ} {flag : Bool}
    {child reviewed : PerOperatorState O S TInner}
    (h : subgraph.review_child child_index flag child = some reviewed) :
    reviewed.fixed = child.fixed := by
  unfold review_child at h
  split at h
  case h_1 => cases h
  case h_2 =>
    split at h
    · obtain ⟨-, _, rfl⟩ := Option.map_eq_some_iff.mp h
      rfl
    · split at h
      · cases h
        rfl
      · cases h
        rfl

/-- Activating a child sets its flag, and changes nothing else of the frame. -/
theorem framed_activate_child [Operate O TInner] {subgraph after : Subgraph O S TOuter TInner}
    {child_index : ℕ} {flag : Bool} (h : subgraph.activate_child child_index = some (flag, after)) :
    ∃ counted, subgraph.set_incomplete child_index flag = some counted ∧ Framed counted after := by
  obtain ⟨child, scheduled, reviewed, counted, hactivated⟩ := activated_of_activate_child h
  refine ⟨counted, hactivated.count, ?_⟩
  obtain ⟨incomplete, incomplete_count, rfl⟩ := set_incomplete_cases hactivated.count
  obtain ⟨extracted, hextracted, rfl⟩ := Option.map_eq_some_iff.mp hactivated.extract
  have hfixed : extracted.1.fixed = child.fixed :=
    ((fixed_extract_progress hextracted).trans (fixed_review_child hactivated.review)).trans
      (fixed_schedule hactivated.schedule)
  exact ⟨rfl, rfl, map_set_of_eq hactivated.child_eq hfixed, rfl, rfl, rfl⟩

/-! ### All steps -/

/-- A step keeps the frame, or activates a child. -/
theorem ScopeStep.framed [PathSummary S TInner] [Operate O TInner]
    {subgraph after : Subgraph O S TOuter TInner} {event : ScopeEvent TOuter TInner}
    (h : ScopeStep subgraph event after) :
    Framed subgraph after ∨ ∃ child_index flag, event = .activate_child child_index ∧
      subgraph.activate_child child_index = some (flag, after) := by
  cases h with
  | outer_frontier _ => exact Or.inl ⟨rfl, rfl, rfl, rfl, rfl, rfl⟩
  | accept_frontier => exact Or.inl ⟨rfl, rfl, rfl, rfl, rfl, rfl⟩
  | enter _ => exact Or.inl ⟨rfl, rfl, rfl, rfl, rfl, rfl⟩
  | harvest_inputs hharvest =>
    obtain ⟨pointstamps, rfl⟩ := harvest_inputs_cases hharvest
    exact Or.inl ⟨rfl, rfl, rfl, rfl, rfl, rfl⟩
  | receive => exact Or.inl ⟨rfl, rfl, rfl, rfl, rfl, rfl⟩
  | propagate_pointstamps hpropagates => exact Or.inl (framed_propagates hpropagates)
  | express_child hexpress => exact Or.inl (framed_express_child hexpress)
  | set_child_external_summary hset =>
    left
    refine Framed.of_modify_child ?_ hset
    intro child changed hchange
    split at hchange
    · cases hchange
      rfl
    · obtain ⟨outcome, _, rfl⟩ := Option.map_eq_some_iff.mp hchange
      rfl
  | activate_child hactivate => exact Or.inr ⟨_, _, rfl, hactivate⟩
  | send_progress hsend =>
    obtain ⟨pointstamps, rfl⟩ := send_progress_cases hsend
    exact Or.inl ⟨rfl, rfl, rfl, rfl, rfl, rfl⟩
  | extract_progress => exact Or.inl ⟨rfl, rfl, rfl, rfl, rfl, rfl⟩

end Subgraph

end Timely
