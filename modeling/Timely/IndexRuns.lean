/-
  Timely/IndexRuns.lean
  =====================
  **Indices in all runs of all workers.**

  Each worker has a subgraph of its own, built for the same graph, and receives
  what the subgraphs of all workers send.  No index is out of range in any run,
  if there are at least six children and the last one is no wrapper.  The debug
  output names the children one to six, and a wrapper that comes last has no
  entry in the tables of the tracker.
-/
import Timely.Schedule
import Timely.WellWired
import Timely.WrapperWakes
import Mathlib.Logic.Relation

set_option linter.unusedSectionVars false

namespace Timely

open Library

/-- A step that neither sends nor receives. -/
def ScopeEvent.Local {TOuter TInner : Type} : ScopeEvent TOuter TInner → Prop
  | .receive _ => False
  | .send_progress => False
  | _ => True

/-! ### Workers -/

/-- The subgraph of each worker, and what has been sent. -/
structure Peers (ι O S TOuter TInner : Type) [Ord TOuter] [Ord TInner] where
  workers : ι → Subgraph O S TOuter TInner
  sent : List (List ((Location × TInner) × ℤ))

section Runs

variable {ι O S TOuter TInner : Type} [DecidableEq ι]
  [PartialOrder TOuter] [DecidableLE TOuter] [DecidableEq TOuter] [Ord TOuter]
  [LinearExtension TOuter]
  [PartialOrder TInner] [DecidableLE TInner] [DecidableEq TInner] [Ord TInner]
  [LinearExtension TInner] [Refines TOuter TInner] [PathSummary S TInner] [Operate O TInner]

/-- All of the changes have been sent. -/
def Sent (sent : List (List ((Location × TInner) × ℤ))) (received : List ((Location × TInner) × ℤ)) :
    Prop :=
  ∀ change ∈ received, ∃ batch ∈ sent, change ∈ batch

/-- A worker calls `schedule`, with changes that have been sent and activations of children, or takes
    another step: it initializes its subgraph, its parent reads and writes what they share, or
    messages enter. -/
inductive PeerStep : Peers ι O S TOuter TInner → Peers ι O S TOuter TInner → Prop
  | schedule {peers : Peers ι O S TOuter TInner} {worker : ι} {fuel : ℕ}
      {received : List ((Location × TInner) × ℤ)} {extensions : List ℕ}
      {scheduled : Subgraph.Scheduled O S TOuter TInner} :
      Sent peers.sent received →
      (∀ index ∈ extensions, index < (peers.workers worker).children.length) →
      (peers.workers worker).schedule fuel received extensions = some scheduled →
      PeerStep peers
        { workers := Function.update peers.workers worker scheduled.subgraph
          sent := peers.sent ++ [scheduled.sent] }
  | scope {peers : Peers ι O S TOuter TInner} {worker : ι} {event : ScopeEvent TOuter TInner}
      {after : Subgraph O S TOuter TInner} :
      event.Local → Subgraph.ScopeStep (peers.workers worker) event after →
      PeerStep peers { peers with workers := Function.update peers.workers worker after }

/-- A call fails for a reason that is not an index only. -/
structure Subgraph.InRange (sent : List (List ((Location × TInner) × ℤ)))
    (subgraph : Subgraph O S TOuter TInner) : Prop where
  schedule : ∀ fuel received extensions, Sent sent received →
    (∀ index ∈ extensions, index < subgraph.children.length) →
    subgraph.schedule fuel received extensions = none → Ends fuel received extensions subgraph
  propagate_pointstamps : ∀ fuel, subgraph.propagate_pointstamps fuel = none → subgraph.Circulating fuel
  activate_child : ∀ (index : ℕ) (child : PerOperatorState O S TInner),
    subgraph.children[index]? = some child → subgraph.activate_child index = none →
      subgraph.Stops index child
  extract_progress : ∀ (index : ℕ) (child : PerOperatorState O S TInner),
    subgraph.children[index]? = some child →
      (child.extract_progress subgraph.wrapper_ghost subgraph.wrapper_ghost_edges
        (subgraph.final_pointstamp, subgraph.temp_active)).isSome
  active : ∀ index ∈ subgraph.temp_active, index < subgraph.children.length

theorem Subgraph.Indexed.inRange (horderly : Operate.Orderly O TInner) {topology : Builder S}
    {subgraph : Subgraph O S TOuter TInner} (h : Indexed topology subgraph)
    {sent : List (List ((Location × TInner) × ℤ))}
    (hsent : ∀ batch ∈ sent, ∀ change ∈ batch, topology.HasKey change.1) : subgraph.InRange sent where
  schedule fuel received extensions hreceived hextensions hnone := by
    have hkeys : ∀ change ∈ received, topology.HasKey change.1 := by
      intro change hchange
      obtain ⟨batch, hbatch, hmem⟩ := hreceived change hchange
      exact hsent batch hbatch change hmem
    rw [← h.nodes] at hextensions
    rcases h.schedule horderly fuel hkeys hextensions with ⟨scheduled, hsome, -⟩ | ⟨-, hends⟩
    · rw [hnone] at hsome
      cases hsome
    · exact hends
  propagate_pointstamps fuel hnone := by
    rcases h.propagate_pointstamps fuel with ⟨after, hsome, -⟩ | ⟨-, hcirculating⟩
    · rw [hnone] at hsome
      cases hsome
    · exact hcirculating
  activate_child index child hchild hnone := by
    rcases h.activate_child horderly hchild with ⟨flag, after, hsome, -⟩ | ⟨-, hstops⟩
    · rw [hnone] at hsome
      cases hsome
    · exact hstops
  extract_progress index child hchild := by
    obtain ⟨outcome, houtcome, -⟩ :=
      h.exists_extract_progress hchild rfl (h.silent index child hchild) h.final
    exact Option.isSome_of_eq_some houtcome
  active := by
    rw [← h.nodes]
    exact h.active

/-- All workers are indexed by graphs with the same ports, and all that has been sent is at these. -/
structure Peers.Indexed (has_location : Location → Bool) (peers : Peers ι O S TOuter TInner) : Prop where
  workers : ∀ worker, ∃ topology : Builder S, topology.has_location = has_location ∧
    Subgraph.Indexed topology (peers.workers worker)
  sent : ∀ batch ∈ peers.sent, ∀ change ∈ batch, has_location change.1.1 = true

namespace Peers.Indexed

variable {has_location : Location → Bool} {peers after : Peers ι O S TOuter TInner}

theorem update (h : Peers.Indexed has_location peers) {worker : ι} {topology : Builder S}
    (htopology : topology.has_location = has_location) {subgraph : Subgraph O S TOuter TInner}
    (hsubgraph : Subgraph.Indexed topology subgraph) (other : ι) :
    ∃ topology : Builder S, topology.has_location = has_location ∧
      Subgraph.Indexed topology (Function.update peers.workers worker subgraph other) := by
  by_cases hother : other = worker
  · subst hother
    rw [Function.update_self]
    exact ⟨topology, htopology, hsubgraph⟩
  · rw [Function.update_of_ne hother]
    exact h.workers other

theorem step (horderly : Operate.Orderly O TInner) (h : Peers.Indexed has_location peers)
    (hstep : PeerStep peers after) : Peers.Indexed has_location after := by
  cases hstep with
  | @schedule worker fuel received extensions scheduled hreceived hextensions hschedule =>
    obtain ⟨topology, rfl, hindexed⟩ := h.workers worker
    have hkeys : ∀ change ∈ received, topology.HasKey change.1 := by
      intro change hchange
      obtain ⟨batch, hbatch, hmem⟩ := hreceived change hchange
      exact h.sent batch hbatch change hmem
    rw [← hindexed.nodes] at hextensions
    rcases hindexed.schedule horderly fuel hkeys hextensions with ⟨other, hother, hafter, hsent⟩ | ⟨hnone, -⟩
    · obtain rfl := Option.some.inj (hschedule.symm.trans hother)
      refine ⟨h.update rfl hafter, ?_⟩
      intro batch hbatch
      rcases List.mem_append.mp hbatch with hold | hnew
      · exact h.sent batch hold
      · rw [List.mem_singleton.mp hnew]
        exact hsent
    · rw [hnone] at hschedule
      cases hschedule
  | @scope worker event subgraph hlocal hscope =>
    obtain ⟨topology, rfl, hindexed⟩ := h.workers worker
    refine ⟨h.update rfl (hindexed.step horderly ?_ hscope), h.sent⟩
    rintro changes rfl
    exact absurd hlocal id

theorem run (horderly : Operate.Orderly O TInner) (h : Peers.Indexed has_location peers)
    (hrun : Relation.ReflTransGen PeerStep peers after) : Peers.Indexed has_location after := by
  induction hrun with
  | refl => exact h
  | tail _ hstep ih => exact ih.step horderly hstep

end Peers.Indexed

/-- In all runs of workers that schedule subgraphs of the same graph all indices are in range, if
    there is a child for each number that is printed, and the last child is no wrapper. -/
theorem indices_in_range [PartialOrder S] [DecidableLE S] (horderly : Operate.Orderly O TInner)
    {builders : ι → SubgraphBuilder O S TOuter TInner} {iteration : ι → IterationOrder ℕ}
    {eager : ι → Bool} {fuel : ι → ℕ} {start last : Peers ι O S TOuter TInner}
    (hwired : ∀ worker, (builders worker).WellWired)
    (hbuild : ∀ worker, (builders worker).build (iteration worker) (eager worker) (fuel worker) =
      some (start.workers worker))
    (hsent : start.sent = [])
    (hgraph : ∀ worker other, (start.workers worker).pointstamp_tracker.builder.shape =
      (start.workers other).pointstamp_tracker.builder.shape)
    (hseven : ∀ worker, 7 ≤ (builders worker).children.length)
    (hlast : ∀ worker, (builders worker).children.length - 1 ∉ (builders worker).wrapper_ghost)
    (hrun : Relation.ReflTransGen PeerStep start last) (worker : ι) :
    (last.workers worker).InRange last.sent := by
  have hstart : Peers.Indexed (start.workers worker).pointstamp_tracker.builder.has_location start := by
    refine ⟨fun other => ⟨_, Builder.has_location_congr (hgraph other worker),
      SubgraphBuilder.indexed_of_build (hwired other) (hseven other) (hlast other) (hbuild other)⟩, ?_⟩
    rw [hsent]
    exact fun _ hbatch => absurd hbatch List.not_mem_nil
  have hindexed := hstart.run horderly hrun
  obtain ⟨topology, hlocation, hworker⟩ := hindexed.workers worker
  refine hworker.inRange horderly fun batch hbatch change hchange => ?_
  unfold Builder.HasKey
  rw [hlocation]
  exact hindexed.sent batch hbatch change hchange

end Runs

namespace Subgraph

/-! ### Workers in range -/

theorem idle_orderly {T : Type} [Ord T] : Operate.Orderly (Idle T) T where
  schedule h := by
    cases h
    exact ⟨rfl, fun _ => ⟨rfl, rfl, rfl, rfl⟩⟩
  set_external_summary h := by
    cases h
    exact ⟨rfl, fun _ => ⟨rfl, rfl, rfl, rfl⟩⟩

/-- Two workers, whose wrapper is followed by another child. -/
def wrapper_peers : Peers Bool (Idle (Unsigned 64)) (Unsigned 64) (Unsigned 64) (Unsigned 64) :=
  ⟨fun _ => one_wrapper, []⟩

theorem one_wrapper_settles : (one_wrapper.propagate_pointstamps 40).isSome := by decide

/-- The first of the workers has propagated pointstamps. -/
def wrapper_peers_after : Peers Bool (Idle (Unsigned 64)) (Unsigned 64) (Unsigned 64) (Unsigned 64) :=
  { wrapper_peers with
    workers := Function.update wrapper_peers.workers false
      ((one_wrapper.propagate_pointstamps 40).get one_wrapper_settles) }

theorem indices_in_range_example : (wrapper_peers_after.workers false).InRange wrapper_peers_after.sent := by
  have hscope : ScopeStep (wrapper_peers.workers false) .propagate_pointstamps
      ((one_wrapper.propagate_pointstamps 40).get one_wrapper_settles) :=
    .propagate_pointstamps ⟨40, (Option.some_get one_wrapper_settles).symm⟩
  have hlocal : (ScopeEvent.propagate_pointstamps : ScopeEvent (Unsigned 64) (Unsigned 64)).Local := trivial
  have hstep : PeerStep wrapper_peers wrapper_peers_after := .scope hlocal hscope
  have hwired : ∀ _ : Bool, one_wrapper_builder.WellWired := fun _ => by decide
  exact indices_in_range idle_orderly hwired (fun _ => (Option.some_get one_wrapper_builds).symm) rfl
    (fun _ _ => rfl) (fun _ => by decide) (fun _ => by decide) (Relation.ReflTransGen.single hstep) false

/-! ### Graphs with an index out of range -/

variable {O S TOuter TInner : Type}
  [PartialOrder TOuter] [DecidableLE TOuter] [DecidableEq TOuter] [Ord TOuter]
  [LinearExtension TOuter]
  [PartialOrder TInner] [DecidableLE TInner] [DecidableEq TInner] [Ord TInner]
  [LinearExtension TInner] [Refines TOuter TInner]

/-- Propagating never goes through with fewer than six children besides the outer scope. -/
theorem propagate_pointstamps_of_few [PathSummary S TInner] {subgraph : Subgraph O S TOuter TInner}
    (h : subgraph.children.length < 7) (fuel : ℕ) : subgraph.propagate_pointstamps fuel = none := by
  unfold propagate_pointstamps
  cases hcommit : subgraph.commit_pointstamps with
  | none => rfl
  | some committed =>
    have hchildren : committed.children = subgraph.children :=
      (committed_of_commit_pointstamps hcommit).children
    rw [Option.bind_some]
    unfold propagate_tracker
    cases committed.pointstamp_tracker.propagate_all fuel with
    | none => rfl
    | some tracker =>
      have hprint : print_children { committed with pointstamp_tracker := tracker } = none := by
        unfold print_children
        rw [if_neg]
        change ¬ 7 ≤ committed.children.length
        rw [hchildren]
        exact Nat.not_le_of_lt h
      rw [Option.map_some, Option.bind_some, hprint]
      rfl

/-- Activating never goes through for a child that the tracker has no entry for. -/
theorem activate_child_of_no_node [Operate O TInner] {subgraph : Subgraph O S TOuter TInner} {index : ℕ}
    (h : subgraph.pointstamp_tracker.per_operator[index]? = none) : subgraph.activate_child index = none := by
  rw [Option.eq_none_iff_forall_ne_some]
  rintro ⟨flag, after⟩ hactivate
  obtain ⟨child, scheduled, reviewed, counted, hactivated⟩ := activated_of_activate_child hactivate
  obtain ⟨_, _, rfl⟩ := set_incomplete_cases hactivated.count
  have hreview := hactivated.review
  unfold review_child at hreview
  rw [h] at hreview
  cases hreview

/-- A scope with three children that have no ports. -/
def small_scope_builder : SubgraphBuilder (Idle (Unsigned 64)) (Unsigned 64) (Unsigned 64) (Unsigned 64) :=
  (((SubgraphBuilder.new_from 1).add_child (idle_child 1 0 0 [])).add_child
    (idle_child 2 0 0 [])).add_child (idle_child 3 0 0 [])

theorem small_scope_builds : (small_scope_builder.build IterationOrder.listed true 40).isSome := by decide

def small_scope : Subgraph (Idle (Unsigned 64)) (Unsigned 64) (Unsigned 64) (Unsigned 64) :=
  (small_scope_builder.build IterationOrder.listed true 40).get small_scope_builds

/-- The tracker of the small scope comes to an end at once. -/
theorem small_scope_ends : ¬ small_scope.Circulating 1 := by
  rintro ⟨committed, loaded, last, hcommit, hload, hlast, hnext⟩
  have hcomputed : (((small_scope.commit_pointstamps.bind fun state =>
      state.pointstamp_tracker.load).bind (Tracker.iterate 1)).map fun tracker =>
        tracker.worklist.next.isSome) = some false := by
    decide
  rw [hcommit, Option.bind_some, hload, Option.bind_some, hlast, Option.map_some, hnext] at hcomputed
  cases hcomputed

/-- The wrapper that comes last has no reason to stop. -/
theorem last_wrapper_goes_on (child : PerOperatorState (Idle (Unsigned 64)) (Unsigned 64) (Unsigned 64))
    (hchild : two_wrappers.children[6]? = some child) : ¬ two_wrappers.Stops 6 child := by
  rintro (hschedule | ⟨flag, scheduled, -, ⟨-, -, hcount⟩ | ⟨child_state, output, time, hstate, -⟩⟩)
  · have hcomputed : (two_wrappers.children[6]?).map (fun found => found.schedule.isSome) = some true := by
      decide
    rw [hchild, Option.map_some, hschedule] at hcomputed
    cases hcomputed
  · exact absurd hcount (by decide)
  · have hcomputed : (two_wrappers.pointstamp_tracker.per_operator[6]?).isSome = false := by decide
    rw [hstate] at hcomputed
    cases hcomputed

/-- An index is out of range in a scope of three children, and in one whose last child is a
    wrapper. -/
theorem indices_out_of_range :
    (small_scope_builder.WellWired ∧
      small_scope_builder.build IterationOrder.listed true 40 = some small_scope ∧
      ¬ small_scope.InRange []) ∧
    two_wrappers_builder.WellWired ∧
      two_wrappers_builder.build IterationOrder.listed true 40 = some two_wrappers ∧
      ¬ two_wrappers.InRange [] := by
  refine ⟨⟨by decide, (Option.some_get small_scope_builds).symm, ?_⟩, by decide,
    (Option.some_get two_wrappers_builds).symm, ?_⟩
  · intro h
    exact small_scope_ends (h.propagate_pointstamps 1 (propagate_pointstamps_of_few (by decide) 1))
  · intro h
    obtain ⟨child, hchild⟩ := Option.isSome_iff_exists.mp
      (show (two_wrappers.children[6]?).isSome = true by decide)
    exact last_wrapper_goes_on child hchild
      (h.activate_child 6 child hchild (activate_child_of_no_node (by decide)))

end Subgraph

end Timely
