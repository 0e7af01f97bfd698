/-
  Timely/Schedule.lean
  ====================
  **Scheduling a subgraph** (`timely/src/progress/subgraph.rs`,
  `Subgraph::schedule`).

  A call of `schedule` runs the methods of a subgraph in a fixed order.  In
  between it activates the children that are enqueued, by increasing index, and
  goes on to those that are enqueued meanwhile.  In a wired subgraph the call
  goes through, or ends for a reason that is not an index.
-/
import Timely.Indices

set_option linter.unusedSectionVars false

namespace Timely

open Library

namespace Subgraph

/-! ### The loop over the children -/

section Loop

variable {O S TOuter TInner : Type} [Ord TOuter]
  [PartialOrder TInner] [DecidableLE TInner] [DecidableEq TInner] [Ord TInner]
  [LinearExtension TInner] [Operate O TInner]

/-- The subgraph without the least of its active children. -/
def popped (subgraph : Subgraph O S TOuter TInner) : Subgraph O S TOuter TInner :=
  { subgraph with temp_active := subgraph.temp_active.tail }

theorem children_set_incomplete {subgraph counted : Subgraph O S TOuter TInner} {index : ℕ} {flag : Bool}
    (h : subgraph.set_incomplete index flag = some counted) : counted.children = subgraph.children := by
  unfold set_incomplete at h
  split at h
  · cases h
  · split_ifs at h <;> cases h <;> rfl

/-- Activating finds the child, and leaves as many children. -/
theorem length_activate_child {subgraph after : Subgraph O S TOuter TInner} {index : ℕ} {flag : Bool}
    (h : subgraph.activate_child index = some (flag, after)) :
    index < subgraph.children.length ∧ after.children.length = subgraph.children.length := by
  unfold activate_child at h
  split at h
  case h_1 => cases h
  case h_2 child hchild =>
    refine ⟨(List.getElem?_eq_some_iff.mp hchild).1, ?_⟩
    split at h
    case h_1 => cases h
    case h_2 =>
      obtain ⟨_, hactivated, heq⟩ := Option.map_eq_some_iff.mp h
      obtain ⟨-, rfl⟩ := Prod.mk.inj heq
      obtain ⟨counted, hcounted, hrest⟩ := Option.bind_eq_some_iff.mp hactivated
      obtain ⟨reviewed, _, hextract⟩ := Option.bind_eq_some_iff.mp hrest
      obtain ⟨extracted, _, rfl⟩ := Option.map_eq_some_iff.mp hextract
      rw [← children_set_incomplete hcounted]
      exact List.length_set

set_option linter.unusedVariables false in
/-- Activate the children that are enqueued, in the order of their indices and none of them twice.
    The loop ends, as the indices increase. -/
def activate_children (previous : ℕ) (subgraph : Subgraph O S TOuter TInner) :
    Option (Subgraph O S TOuter TInner) :=
  match hactive : subgraph.temp_active with
  | [] => some subgraph
  | index :: _ =>
    if previous < index then
      match hactivate : subgraph.popped.activate_child index with
      | none => none
      | some (_, after) => activate_children index after
    else activate_children previous subgraph.popped
termination_by (subgraph.children.length - previous, subgraph.temp_active.length)
decreasing_by
  · have hlength := length_activate_child hactivate
    change index < subgraph.children.length ∧ after.children.length = subgraph.children.length at hlength
    apply Prod.Lex.left
    omega
  · apply Prod.Lex.right
    change subgraph.temp_active.tail.length < _
    rw [hactive]
    exact Nat.lt_succ_self _

end Loop

variable {O S TOuter TInner : Type}
  [PartialOrder TOuter] [DecidableLE TOuter] [DecidableEq TOuter] [Ord TOuter]
  [LinearExtension TOuter]
  [PartialOrder TInner] [DecidableLE TInner] [DecidableEq TInner] [Ord TInner]
  [LinearExtension TInner] [Refines TOuter TInner] [PathSummary S TInner] [Operate O TInner]

/-! ### The method -/

/-- Enqueue the children that have been activated from outside. -/
def enqueue (extensions : List ℕ) (subgraph : Subgraph O S TOuter TInner) :
    Subgraph O S TOuter TInner :=
  { subgraph with temp_active := extensions.foldl activate subgraph.temp_active }

/-- What a call of `schedule` yields: what it returns, whether it activates the subgraph once more,
    and what it sends. -/
structure Scheduled (O S TOuter TInner : Type) [Ord TOuter] [Ord TInner] where
  unfinished : Bool
  reactivate : Bool
  sent : List ((Location × TInner) × ℤ)
  subgraph : Subgraph O S TOuter TInner

/-- Schedule a subgraph that receives the given progress updates, and some of whose children have
    been activated. -/
def schedule (fuel : ℕ) (received : List ((Location × TInner) × ℤ)) (extensions : List ℕ)
    (subgraph : Subgraph O S TOuter TInner) : Option (Scheduled O S TOuter TInner) :=
  subgraph.accept_frontier.harvest_inputs.bind fun harvested =>
    ((harvested.receive received).propagate_pointstamps fuel).bind fun propagated =>
      (activate_children 0 (propagated.enqueue extensions)).bind fun activated =>
        activated.send_progress.map fun sent =>
          let after := { sent.2 with final_pointstamp := sent.2.final_pointstamp.is_empty.2 }
          { unfinished := after.unfinished
            reactivate := !sent.2.final_pointstamp.is_empty.1
            sent := sent.1
            subgraph := after }

/-! ### Reasons to end -/

/-- The loop over the children meets one that stops it. -/
inductive Interrupted : ℕ → Subgraph O S TOuter TInner → Prop
  | here {previous index : ℕ} {rest : List ℕ} {subgraph : Subgraph O S TOuter TInner}
      {child : PerOperatorState O S TInner} :
      subgraph.temp_active = index :: rest → previous < index →
      subgraph.children[index]? = some child → subgraph.popped.Stops index child →
      Interrupted previous subgraph
  | later {previous index : ℕ} {rest : List ℕ} {subgraph after : Subgraph O S TOuter TInner} {flag : Bool} :
      subgraph.temp_active = index :: rest → previous < index →
      subgraph.popped.activate_child index = some (flag, after) → Interrupted index after →
      Interrupted previous subgraph
  | skipped {previous index : ℕ} {rest : List ℕ} {subgraph : Subgraph O S TOuter TInner} :
      subgraph.temp_active = index :: rest → index ≤ previous → Interrupted previous subgraph.popped →
      Interrupted previous subgraph

/-- A call of `schedule` does not come to the end of propagating, or of activating children. -/
inductive Ends (fuel : ℕ) (received : List ((Location × TInner) × ℤ)) (extensions : List ℕ)
    (subgraph : Subgraph O S TOuter TInner) : Prop
  | circulating {harvested : Subgraph O S TOuter TInner} :
      subgraph.accept_frontier.harvest_inputs = some harvested →
      (harvested.receive received).Circulating fuel → Ends fuel received extensions subgraph
  | interrupted {harvested propagated : Subgraph O S TOuter TInner} :
      subgraph.accept_frontier.harvest_inputs = some harvested →
      (harvested.receive received).propagate_pointstamps fuel = some propagated →
      Interrupted 0 (propagated.enqueue extensions) → Ends fuel received extensions subgraph

/-! ### Calls that go through -/

namespace Indexed

variable {topology : Builder S}

theorem popped {subgraph : Subgraph O S TOuter TInner} (h : Indexed topology subgraph) :
    Indexed topology subgraph.popped :=
  h.with_active fun index hindex => h.active index (List.mem_of_mem_tail hindex)

/-- The loop over the children goes through, unless a child stops it. -/
theorem activate_children (horderly : Operate.Orderly O TInner) {previous : ℕ}
    {subgraph : Subgraph O S TOuter TInner} (h : Indexed topology subgraph) :
    (∃ after, activate_children previous subgraph = some after ∧ Indexed topology after) ∨
      Subgraph.activate_children previous subgraph = none ∧ Interrupted previous subgraph := by
  fun_induction Subgraph.activate_children previous subgraph with
  | case1 previous subgraph hactive => exact Or.inl ⟨subgraph, rfl, h⟩
  | case2 previous subgraph index rest hactive hnew hactivate =>
    obtain ⟨child, hchild⟩ := h.exists_child (h.active index (by rw [hactive]; exact List.mem_cons_self))
    rcases h.popped.activate_child horderly hchild with ⟨flag, after, hsome, -⟩ | ⟨-, hstops⟩
    · rw [hactivate] at hsome
      cases hsome
    · exact Or.inr ⟨rfl, .here hactive hnew hchild hstops⟩
  | case3 previous subgraph index rest hactive hnew flag after hactivate ih =>
    obtain ⟨child, hchild⟩ := h.exists_child (h.active index (by rw [hactive]; exact List.mem_cons_self))
    rcases h.popped.activate_child horderly hchild with ⟨_, other, hother, hindexed⟩ | ⟨hnone, -⟩
    · obtain rfl := (Prod.mk.inj (Option.some.inj (hactivate.symm.trans hother))).2
      rcases ih hindexed with hthrough | ⟨hnone, hinterrupted⟩
      · exact Or.inl hthrough
      · exact Or.inr ⟨hnone, .later hactive hnew hactivate hinterrupted⟩
    · rw [hactivate] at hnone
      cases hnone
  | case4 previous subgraph index rest hactive hold ih =>
    rcases ih h.popped with hthrough | ⟨hnone, hinterrupted⟩
    · exact Or.inl hthrough
    · exact Or.inr ⟨hnone, .skipped hactive (Nat.le_of_not_lt hold) hinterrupted⟩

theorem enqueue {subgraph : Subgraph O S TOuter TInner} (h : Indexed topology subgraph) {extensions : List ℕ}
    (hextensions : ∀ index ∈ extensions, index < topology.shape.length) :
    Indexed topology (subgraph.enqueue extensions) := by
  refine h.with_active ?_
  have hactive := h.active
  generalize subgraph.temp_active = active at hactive
  induction extensions generalizing active with
  | nil => exact hactive
  | cons index extensions ih =>
    exact ih (fun other hother => hextensions other (List.mem_cons_of_mem _ hother)) _
      (active_activate hactive (hextensions index List.mem_cons_self))

/-- A call of `schedule` that receives changes at locations of the graph only, and activations of
    children, goes through or ends for a reason that is not an index. -/
theorem schedule (horderly : Operate.Orderly O TInner) {subgraph : Subgraph O S TOuter TInner}
    (h : Indexed topology subgraph) (fuel : ℕ) {received : List ((Location × TInner) × ℤ)}
    (hreceived : ∀ change ∈ received, topology.HasKey change.1) {extensions : List ℕ}
    (hextensions : ∀ index ∈ extensions, index < topology.shape.length) :
    (∃ scheduled, subgraph.schedule fuel received extensions = some scheduled ∧
      Indexed topology scheduled.subgraph ∧ ∀ change ∈ scheduled.sent, topology.HasKey change.1) ∨
      subgraph.schedule fuel received extensions = none ∧ Ends fuel received extensions subgraph := by
  obtain ⟨harvested, hharvest, hharvested⟩ := h.accept_frontier.exists_harvest_inputs
  unfold Subgraph.schedule
  rw [hharvest, Option.bind_some]
  rcases (hharvested.receive hreceived).propagate_pointstamps fuel with
    ⟨propagated, hpropagate, hpropagated⟩ | ⟨hnone, hcirculating⟩
  · rw [hpropagate, Option.bind_some]
    rcases (hpropagated.enqueue hextensions).activate_children horderly with
      ⟨activated, hactivate, hactivated⟩ | ⟨hnone, hinterrupted⟩
    · obtain ⟨sent, after, hsend, hafter, hkeys⟩ := hactivated.exists_send_progress
      left
      rw [hactivate, Option.bind_some, hsend, Option.map_some]
      exact ⟨_, rfl, hafter.with_pointstamps hafter.locals hafter.final.is_empty, hkeys⟩
    · exact Or.inr ⟨by rw [hnone]; rfl, .interrupted hharvest hpropagate hinterrupted⟩
  · exact Or.inr ⟨by rw [hnone]; rfl, .circulating hharvest hcirculating⟩

end Indexed

end Subgraph

end Timely
