/-
  Timely/GhostCredits.lean
  ========================
  **Messages that ghosts produce.**

  What a ghost produces is credited along the table of node pairs of its wrapper,
  at port zero of each node.  The tracker has the edges themselves.  The two agree
  but for the edge that leaves the last ghost, which keeps the port of the target
  of the last stashed edge out of a wrapper.
-/
import Timely.Reorganize
import Mathlib.Algebra.BigOperators.Group.List.Basic

set_option linter.unusedSectionVars false

namespace Timely

open Library

/-! ### What is credited -/

section Credits

variable {T : Type} [PartialOrder T] [DecidableLE T] [DecidableEq T] [Ord T] [LinearExtension T]

/-- The targets that the table of a wrapper has for a ghost. -/
def credited (wrapper_edges : List (ℕ × ℕ)) (ghost : ℕ) : List Target :=
  (wrapper_edges.filter fun edge => edge.1 = ghost).map fun edge => ⟨edge.2, 0⟩

/-- The targets of the edges out of output zero of a node. -/
def targets_of (edges : List (Source × Target)) (node : ℕ) : List Target :=
  (edges.filter fun edge => edge.1 = ⟨node, 0⟩).map Prod.snd

/-- A produced change is added at the target of each edge of the tracker out of the ghost, and
    nowhere else. -/
def CreditsEdges (T : Type) [PartialOrder T] [DecidableLE T] [DecidableEq T] [Ord T]
    [LinearExtension T] (edges : List (Source × Target)) (wrapper_edges : List (ℕ × ℕ))
    (ghost : ℕ) : Prop :=
  ∀ (change : T × ℤ) (state : Extraction T), ∃ after,
    extract_ghost_produced wrapper_edges ghost 0 change state = some after ∧
      ∀ location time, after.1.value (location, time) = state.1.value (location, time) +
        if change.1 = time then
          change.2 * (((targets_of edges ghost).map Location.from_target).count location : ℤ)
        else 0

/-- Extracting adds the change at each credited target. -/
theorem value_extract_ghost_produced (wrapper_edges : List (ℕ × ℕ)) (ghost output : ℕ)
    (change : T × ℤ) (state : Extraction T) : ∃ after,
    extract_ghost_produced wrapper_edges ghost output change state = some after ∧
      ∀ location time, after.1.value (location, time) = state.1.value (location, time) +
        if change.1 = time then
          change.2 * (((credited wrapper_edges ghost).map Location.from_target).count location : ℤ)
        else 0 := by
  refine ⟨_, rfl, ?_⟩
  unfold credited
  induction wrapper_edges.filter fun edge => edge.1 = ghost generalizing state with
  | nil =>
    intro location time
    simp
  | cons edge rest ih =>
    intro location time
    rw [List.foldl_cons, ih, ChangeBatch.value_update, List.map_cons, List.map_cons, List.count_cons]
    by_cases htime : change.1 = time
    · by_cases hlocation : Location.from_target ⟨edge.2, 0⟩ = location
      · subst htime
        subst hlocation
        simp only [if_true, beq_self_eq_true]
        push_cast
        ring
      · have hne : (Location.from_target ⟨edge.2, 0⟩, change.1) ≠ (location, time) :=
          fun heq => hlocation (Prod.mk.inj heq).1
        simp only [if_neg hne, if_pos htime, beq_eq_false_iff_ne.mpr hlocation, Bool.false_eq_true,
          if_false, add_zero]
    · have hne : (Location.from_target ⟨edge.2, 0⟩, change.1) ≠ (location, time) :=
        fun heq => htime (Prod.mk.inj heq).2
      simp only [if_neg hne, if_neg htime, add_zero]

/-- The credits follow the edges exactly if the two lists of targets are the same. -/
theorem creditsEdges_iff [Nonempty T] {edges : List (Source × Target)} {wrapper_edges : List (ℕ × ℕ)}
    {ghost : ℕ} : CreditsEdges T edges wrapper_edges ghost ↔
      (credited wrapper_edges ghost).Perm (targets_of edges ghost) := by
  constructor
  · intro h
    obtain ⟨time⟩ := ‹Nonempty T›
    apply (List.map_perm_map_iff Location.from_target_injective).mp
    apply List.perm_iff_count.mpr
    intro location
    obtain ⟨after, hafter, hvalue⟩ := h (time, 1) (ChangeBatch.new, [])
    obtain ⟨after', hafter', hvalue'⟩ :=
      value_extract_ghost_produced wrapper_edges ghost 0 (time, 1) (ChangeBatch.new, [])
    obtain rfl : after' = after := Option.some.inj (hafter'.symm.trans hafter)
    have hsame := (hvalue' location time).symm.trans (hvalue location time)
    simp only [if_true, one_mul, add_right_inj] at hsame
    exact_mod_cast hsame
  · intro hperm change state
    obtain ⟨after, hafter, hvalue⟩ := value_extract_ghost_produced wrapper_edges ghost 0 change state
    refine ⟨after, hafter, ?_⟩
    intro location time
    rw [hvalue, (hperm.map _).count_eq]

end Credits

namespace SubgraphBuilder

variable {O S TOuter TInner : Type}
  [PartialOrder TOuter] [DecidableLE TOuter] [DecidableEq TOuter] [Ord TOuter]
  [LinearExtension TOuter]
  [PartialOrder TInner] [DecidableLE TInner] [DecidableEq TInner] [Ord TInner]
  [LinearExtension TInner] [Refines TOuter TInner]

/-! ### The edges of a ghost -/

/-- The ghost edges of a wrapper start at its own ghosts, and no other edge is set aside. -/
structure GhostEdgesOwn (builder : SubgraphBuilder O S TOuter TInner) : Prop where
  stashed : builder.ghost_edge_stash = []
  own : ∀ {wrapper wrapper' ghosts edges}, builder.wrapper_ghost.lookup wrapper = some ghosts →
    builder.wrapper_ghost_edges.lookup wrapper' = some edges → ∀ edge ∈ edges, edge.1 ∈ ghosts →
    wrapper' = wrapper

section Ghost

variable {builder : SubgraphBuilder O S TOuter TInner} (hghosts : builder.HasGhosts)
  (hapart : builder.GhostsApart) {wrapper ghost : ℕ} {ghosts : List ℕ}
  (hlookup : builder.wrapper_ghost.lookup wrapper = some ghosts) (hghost : ghost ∈ ghosts)

include hapart hlookup hghost

theorem last_source_ne_ghost :
    (last_source builder.wrapper_ghost builder.edge_stash).node ≠ ghost := by
  rcases last_source_mem builder.wrapper_ghost builder.edge_stash with hzero | ⟨edge, hedge, hsource⟩
  · rw [hzero]
    exact (hapart.ne_zero hlookup hghost).symm
  · rw [← hsource]
    exact (hapart.ne_ends hlookup hghost edge hedge).1

include hghosts

/-- Only the wrapper of a ghost has it for its last ghost. -/
theorem eq_wrapper_of_last_ghost {other : ℕ} (hother : other ∈ builder.wrapper_ghost)
    (hlast : last_ghost builder.wrapper_ghost other = ghost) : other = wrapper := by
  obtain ⟨ghosts', hlookup'⟩ := Option.isSome_iff_exists.mp (AList.lookup_isSome.mpr hother)
  have hmem := (mem_of_head?_ghosts hlookup' (hghosts _ _ hlookup')).2
  rw [hlast] at hmem
  exact hapart.disjoint hlookup' hlookup hmem hghost

/-- The connecting edges out of a ghost: one if it is the last. -/
theorem targets_of_connecting :
    targets_of (builder.wrapper_ghost.keys.flatMap builder.connecting) ghost =
      if last_ghost builder.wrapper_ghost wrapper = ghost then
        [last_target builder.wrapper_ghost builder.edge_stash] else [] := by
  have hwrapper : wrapper ∈ builder.wrapper_ghost.keys :=
    AList.mem_keys.mp (AList.lookup_isSome.mp (by rw [hlookup]; rfl))
  unfold targets_of
  rw [List.filter_flatMap, List.map_flatMap]
  refine Eq.trans (List.flatMap_congr fun other hother => ?_)
    (flatMap_ite builder.wrapper_ghost.keys_nodup hwrapper _)
  have hsource : ¬ (last_source builder.wrapper_ghost builder.edge_stash) = ⟨ghost, 0⟩ :=
    fun heq => last_source_ne_ghost hapart hlookup hghost (congrArg Source.node heq)
  by_cases hlast : last_ghost builder.wrapper_ghost other = ghost
  · have heq := eq_wrapper_of_last_ghost hghosts hapart hlookup hghost (AList.mem_keys.mpr hother) hlast
    subst heq
    simp [connecting, hsource, hlast]
  · have hne : other = wrapper → ¬ last_ghost builder.wrapper_ghost wrapper = ghost := by
      rintro rfl
      exact hlast
    by_cases heq : other = wrapper
    · simp [connecting, hsource, heq, hne heq]
    · simp [connecting, hsource, hlast, heq]

omit hghosts in
/-- The edges between ghosts out of a ghost are those of its wrapper. -/
theorem targets_of_ghost_edges (hown : builder.GhostEdgesOwn) :
    targets_of (builder.wrapper_ghost.keys.flatMap fun other =>
        ((builder.wrapper_ghost_edges.lookup other).getD []).map ghost_edge) ghost =
      credited ((builder.wrapper_ghost_edges.lookup wrapper).getD []) ghost := by
  have hwrapper : wrapper ∈ builder.wrapper_ghost.keys :=
    AList.mem_keys.mp (AList.lookup_isSome.mp (by rw [hlookup]; rfl))
  have hone : ∀ edges : List (ℕ × ℕ), ((edges.map ghost_edge).filter fun edge =>
      decide (edge.1 = (⟨ghost, 0⟩ : Source))).map Prod.snd = credited edges ghost := by
    intro edges
    unfold credited
    rw [List.filter_map, List.map_map]
    have hsame : ∀ edge : ℕ × ℕ, decide ((ghost_edge edge).1 = (⟨ghost, 0⟩ : Source)) =
        decide (edge.1 = ghost) := by
      intro edge
      simp [ghost_edge]
    exact congrArg (List.map _) (List.filter_congr fun edge _ => hsame edge)
  unfold targets_of
  rw [List.filter_flatMap, List.map_flatMap]
  refine Eq.trans (List.flatMap_congr fun other hother => ?_)
    (flatMap_ite builder.wrapper_ghost.keys_nodup hwrapper _)
  rw [hone]
  by_cases heq : other = wrapper
  · rw [if_pos heq, heq]
  · rw [if_neg heq]
    unfold credited
    rw [List.map_eq_nil_iff, List.filter_eq_nil_iff]
    intro edge hedge hstart
    cases hlookup' : builder.wrapper_ghost_edges.lookup other with
    | none =>
      rw [hlookup'] at hedge
      cases hedge
    | some edges =>
      rw [hlookup'] at hedge
      exact heq (hown.own hlookup hlookup' edge hedge (of_decide_eq_true hstart ▸ hghost))

omit hghosts in
/-- No other edge starts at a ghost. -/
theorem targets_of_untouched :
    targets_of (builder.edge_stash.filter fun edge => !touches builder.wrapper_ghost edge) ghost = [] := by
  unfold targets_of
  rw [List.map_eq_nil_iff, List.filter_eq_nil_iff]
  intro edge hedge hstart
  have hsource := congrArg Source.node (of_decide_eq_true hstart)
  exact (hapart.ne_ends hlookup hghost edge (List.mem_of_mem_filter hedge)).1 hsource

omit hghosts in
/-- The credits of a ghost: its edges to other ghosts, and one more if it is the last. -/
theorem credited_extended :
    credited (builder.extended_edges wrapper) ghost =
      credited ((builder.wrapper_ghost_edges.lookup wrapper).getD []) ghost ++
        if last_ghost builder.wrapper_ghost wrapper = ghost then
          [⟨(last_target builder.wrapper_ghost builder.edge_stash).node, 0⟩] else [] := by
  have hsource := last_source_ne_ghost hapart hlookup hghost
  unfold credited extended_edges
  rw [List.filter_append, List.map_append]
  by_cases hlast : last_ghost builder.wrapper_ghost wrapper = ghost
  · simp [hsource, hlast]
  · simp [hsource, hlast]

end Ghost

/-! ### The result -/

/-- The credits of a ghost follow the tracker's edges exactly if it is not the last ghost of its
    wrapper, or the last stashed edge out of a wrapper ends at port zero. -/
theorem ghost_credits_iff [Timestamp TInner] {builder : SubgraphBuilder O S TOuter TInner}
    (hghosts : builder.HasGhosts) (hapart : builder.GhostsApart) (hown : builder.GhostEdgesOwn)
    (iteration : IterationOrder ℕ) :
    ∃ edges table, builder.reorganize_edges iteration = some (edges, table) ∧
      ∀ {wrapper ghost : ℕ} {ghosts : List ℕ}, builder.wrapper_ghost.lookup wrapper = some ghosts →
        ghost ∈ ghosts → ∃ wrapper_edges, table.lookup wrapper = some wrapper_edges ∧
          (CreditsEdges TInner edges wrapper_edges ghost ↔
            (last_ghost builder.wrapper_ghost wrapper = ghost →
              (last_target builder.wrapper_ghost builder.edge_stash).port = 0)) := by
  obtain ⟨edges, table, hrun, hedges, htable⟩ := exists_reorganize_edges hghosts iteration
  refine ⟨edges, table, hrun, ?_⟩
  intro wrapper ghost ghosts hlookup hghost
  have hwrapper : wrapper ∈ builder.wrapper_ghost := AList.lookup_isSome.mp (by rw [hlookup]; rfl)
  refine ⟨_, htable wrapper hwrapper, ?_⟩
  have htargets : (targets_of edges ghost).Perm
      ((if last_ghost builder.wrapper_ghost wrapper = ghost then
          [last_target builder.wrapper_ghost builder.edge_stash] else []) ++
        credited ((builder.wrapper_ghost_edges.lookup wrapper).getD []) ghost) := by
    have hfiltered := (hedges.filter fun edge => decide (edge.1 = (⟨ghost, 0⟩ : Source))).map Prod.snd
    simp only [hown.stashed, List.nil_append, List.filter_append, List.map_append] at hfiltered
    refine hfiltered.trans (List.Perm.of_eq ?_)
    have huntouched := targets_of_untouched hapart hlookup hghost
    have hconnecting := targets_of_connecting hghosts hapart hlookup hghost
    have hinternal := targets_of_ghost_edges hapart hlookup hghost hown
    unfold targets_of at huntouched hconnecting hinternal
    rw [huntouched, hconnecting, hinternal, List.nil_append]
  have : Nonempty TInner := ⟨Timestamp.minimum⟩
  rw [creditsEdges_iff, credited_extended hapart hlookup hghost]
  rw [List.Perm.congr_right htargets.symm _ |>.symm, List.Perm.congr_right List.perm_append_comm _,
    List.perm_append_left_iff]
  by_cases hlast : last_ghost builder.wrapper_ghost wrapper = ghost
  · rw [if_pos hlast, if_pos hlast, List.singleton_perm_singleton]
    constructor
    · exact fun heq _ => (congrArg Target.port heq).symm
    · intro hport
      exact (Target.mk.injEq _ _ _ _).mpr ⟨rfl, (hport hlast).symm⟩
  · rw [if_neg hlast, if_neg hlast]
    exact ⟨fun _ h => absurd h hlast, fun _ => List.Perm.refl _⟩

/-- One wrapper whose consumer takes its output at the given port: `1 → 3 → 4`, where the wrapper
    `3` stands for the ghost `2`. -/
def example_consumer (port : ℕ) : SubgraphBuilder Unit (Unsigned 64) (Unsigned 64) (Unsigned 64) :=
  (((new_from 1).add_fpga_operator 3 [2] []).connect ⟨1, 0⟩ ⟨3, 0⟩).connect ⟨3, 0⟩ ⟨4, port⟩

theorem example_consumer_lookup {port wrapper : ℕ} {ghosts : List ℕ}
    (h : (example_consumer port).wrapper_ghost.lookup wrapper = some ghosts) :
    wrapper = 3 ∧ ghosts = [2] := by
  by_cases hwrapper : wrapper = 3
  · subst hwrapper
    exact ⟨rfl, (Option.some.inj h).symm⟩
  · have hnone : (example_consumer port).wrapper_ghost.lookup wrapper = none :=
      (AList.lookup_insert_ne hwrapper).trans (AList.lookup_empty wrapper)
    rw [hnone] at h
    cases h

theorem example_consumer_hasGhosts (port : ℕ) : (example_consumer port).HasGhosts := by
  intro wrapper ghosts hlookup
  rw [(example_consumer_lookup hlookup).2]
  exact List.cons_ne_nil _ _

theorem example_consumer_ghostsApart (port : ℕ) : (example_consumer port).GhostsApart where
  ne_zero hlookup hghost := by
    obtain ⟨rfl, rfl⟩ := example_consumer_lookup hlookup
    rw [List.mem_singleton.mp hghost]
    decide
  ne_ends hlookup hghost edge hedge := by
    obtain ⟨rfl, rfl⟩ := example_consumer_lookup hlookup
    rw [List.mem_singleton.mp hghost]
    have hstash : edge ∈ [((⟨1, 0⟩, ⟨3, 0⟩) : Source × Target), (⟨3, 0⟩, ⟨4, port⟩)] := hedge
    rcases List.mem_cons.mp hstash with rfl | hlast
    · decide
    · rw [List.mem_singleton.mp hlast]
      exact ⟨fun h : 3 = 2 => absurd h (by decide), fun h : 4 = 2 => absurd h (by decide)⟩
  disjoint hlookup hlookup' _ _ :=
    (example_consumer_lookup hlookup).1.trans (example_consumer_lookup hlookup').1.symm

theorem example_consumer_ghostEdgesOwn (port : ℕ) : (example_consumer port).GhostEdgesOwn where
  stashed := rfl
  own {wrapper wrapper' ghosts edges} hlookup hedges edge hedge hghost := by
    by_cases hwrapper : wrapper' = 3
    · subst hwrapper
      obtain rfl : [] = edges := Option.some.inj hedges
      cases hedge
    · have hnone : (example_consumer port).wrapper_ghost_edges.lookup wrapper' = none :=
        (AList.lookup_insert_ne hwrapper).trans (AList.lookup_empty wrapper')
      rw [hnone] at hedges
      cases hedges

theorem ghost_credits_iff_example : ∃ edges table,
    (example_consumer 0).reorganize_edges IterationOrder.listed = some (edges, table) ∧
      ∃ wrapper_edges, table.lookup 3 = some wrapper_edges ∧
        CreditsEdges (Unsigned 64) edges wrapper_edges 2 := by
  obtain ⟨edges, table, hrun, hcredits⟩ := ghost_credits_iff (example_consumer_hasGhosts 0)
    (example_consumer_ghostsApart 0) (example_consumer_ghostEdgesOwn 0) IterationOrder.listed
  obtain ⟨wrapper_edges, htable, hiff⟩ := hcredits (rfl : (example_consumer 0).wrapper_ghost.lookup 3 = some [2])
    (List.mem_singleton_self 2)
  exact ⟨edges, table, hrun, wrapper_edges, htable, hiff.mpr fun _ => rfl⟩

/-- A consumer that takes the output of a wrapper at port one is credited at port zero. -/
theorem ghost_credits_wrong_port : ∃ edges wrapper_edges,
    ((example_consumer 1).reorganize_edges IterationOrder.listed).map
        (fun reorganized => (reorganized.1, reorganized.2.lookup 3)) =
      some (edges, some wrapper_edges) ∧
    (⟨2, 0⟩, ⟨4, 1⟩) ∈ edges ∧ ¬ CreditsEdges (Unsigned 64) edges wrapper_edges 2 := by
  refine ⟨[(⟨1, 0⟩, ⟨2, 0⟩), (⟨2, 0⟩, ⟨4, 1⟩)], [(1, 2), (2, 4)], by decide, by decide, ?_⟩
  rw [creditsEdges_iff]
  decide

end SubgraphBuilder

end Timely
