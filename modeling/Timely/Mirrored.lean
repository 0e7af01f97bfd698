/-
  Timely/Mirrored.lean
  ====================
  **The graph mirrors the children** (`SubgraphBuilder::build` of
  `timely/src/progress/subgraph.rs`).

  A scope counts what a child produces along the edges that it keeps for the child,
  and the tracker follows the edges and the summaries of its graph.  Both are made
  from the same edges: where no child stands in for others, each node of the graph
  has the edges and the summary of the child with its number.
-/
import Timely.WellWired

set_option linter.unusedSectionVars false

namespace Timely

open Library

namespace Builder

variable {S : Type}

/-- Adding a node sets its summary, and leaves those of the others. -/
theorem nodes_of_add_node {builder after : Builder S} {index inputs outputs : ℕ}
    {summary : List (List (Antichain S))} (h : builder.add_node index inputs outputs summary = some after) :
    after.nodes[index]? = some summary ∧ ∀ (other : ℕ) (kept : List (List (Antichain S))),
      other ≠ index → builder.nodes[other]? = some kept → after.nodes[other]? = some kept := by
  unfold add_node at h
  split at h
  case isFalse => cases h
  case isTrue =>
    cases h
    have hlength : index < (builder.pad index).nodes.length := by
      simp only [pad, List.length_append, List.length_replicate, builder.nodes_length]
      omega
    refine ⟨List.getElem?_set_self hlength, fun other kept hne hkept => ?_⟩
    rw [List.getElem?_set_ne hne.symm]
    exact (List.getElem?_append_left (List.getElem?_eq_some_iff.mp hkept).1).trans hkept

/-- A node without edges has an empty list of targets for each output. -/
theorem Unconnected.edges_eq {builder : Builder S} (h : builder.Unconnected) {index inputs outputs : ℕ}
    (hshape : builder.shape[index]? = some (inputs, outputs)) :
    builder.edges[index]? = some (List.replicate outputs []) := by
  have hlength : index < builder.edges.length := by
    rw [builder.edges_length]
    exact (List.getElem?_eq_some_iff.mp hshape).1
  have hedges := List.getElem?_eq_getElem hlength
  rw [hedges, Option.some.injEq]
  refine List.eq_replicate_iff.mpr ⟨builder.edges_shape index _ _ hedges hshape, fun targets htargets => ?_⟩
  exact h _ (List.getElem_mem hlength) targets htargets

/-- Adding an edge adds its target at its source, and leaves the summaries. -/
theorem edges_of_add_edge {builder after : Builder S} {source : Source} {target : Target}
    (h : builder.add_edge source target = some after) :
    after.nodes = builder.nodes ∧ after.edges = builder.edges.modify source.node fun outputs =>
      outputs.modify source.port fun targets => targets ++ [target] := by
  unfold add_edge at h
  split at h
  case isFalse => cases h
  case isTrue =>
    cases h
    exact ⟨rfl, rfl⟩

end Builder

/-- The nodes of the graph have the numbers, edges and summaries of the children. -/
def Mirrored {O S T : Type} [Ord T] (topology : Builder S) (children : List (PerOperatorState O S T)) :
    Prop :=
  ∀ (index : ℕ) (child : PerOperatorState O S T), index ≠ 0 → children[index]? = some child →
    child.index = index ∧ topology.edges[index]? = some child.ghost_edges ∧
      topology.nodes[index]? = some child.internal_summary

namespace SubgraphBuilder

variable {O S TOuter TInner : Type}
  [PartialOrder TOuter] [DecidableLE TOuter] [DecidableEq TOuter] [Ord TOuter]
  [LinearExtension TOuter]
  [PartialOrder TInner] [DecidableLE TInner] [DecidableEq TInner] [Ord TInner]
  [LinearExtension TInner] [Refines TOuter TInner]

/-- Pushing an edge keeps the mirror: the target goes to the child and to the graph. -/
theorem Mirrored.push_ghost_edge {before after : List (PerOperatorState O S TInner) × Builder S}
    (h : Mirrored before.2 before.1) {edge : Source × Target} (hpush : push_ghost_edge before edge = some after) :
    Mirrored after.2 after.1 := by
  unfold SubgraphBuilder.push_ghost_edge at hpush
  split at hpush
  case h_1 => cases hpush
  case h_2 child hchild =>
    obtain ⟨ports, hports, hpush⟩ := Option.bind_eq_some_iff.mp hpush
    obtain ⟨extended, hextended, rfl⟩ := Option.map_eq_some_iff.mp hpush
    obtain ⟨hnodes, hedges⟩ := Builder.edges_of_add_edge hextended
    intro index other hindex hother
    have hgraph : extended.edges[index]? = if edge.1.node = index then
        (before.2.edges[index]?).map fun outputs => outputs.modify edge.1.port fun targets =>
          targets ++ [edge.2]
        else before.2.edges[index]? := by
      rw [hedges, List.getElem?_modify]
      by_cases hnode : edge.1.node = index
      · simp [hnode]
      · simp [hnode]
    rw [hnodes, hgraph]
    rcases Builder.getElem?_set_cases hother with ⟨rfl, rfl⟩ | ⟨hne, hold⟩
    · obtain ⟨hsame, hmirrored, hsummary⟩ := h _ child hindex hchild
      refine ⟨hsame, ?_, hsummary⟩
      rw [if_pos rfl, hmirrored, Option.map_some]
      unfold push_target at hports
      split at hports
      case isFalse => cases hports
      case isTrue =>
        cases hports
        rfl
    · rw [if_neg hne]
      exact h index other hindex hold

/-- Without wrappers every child becomes a node with its summary. -/
theorem nodes_of_foldlM {builder : SubgraphBuilder O S TOuter TInner} (hplain : builder.wrapper_ghost = ∅)
    {items : List (PerOperatorState O S TInner × ℕ)} (hnodup : (items.map Prod.snd).Nodup)
    {start nodes : Builder S}
    (h : items.foldlM (fun topology child =>
      if child.2 ∈ builder.wrapper_ghost then some topology
      else topology.add_node child.2 child.1.inputs child.1.outputs child.1.internal_summary) start =
        some nodes) :
    (∀ item ∈ items, nodes.nodes[item.2]? = some item.1.internal_summary) ∧
      ∀ (other : ℕ) (kept : List (List (Antichain S))), other ∉ items.map Prod.snd →
        start.nodes[other]? = some kept → nodes.nodes[other]? = some kept := by
  induction items generalizing start with
  | nil =>
    rw [List.foldlM_nil] at h
    cases h
    exact ⟨fun _ hitem => absurd hitem List.not_mem_nil, fun _ _ _ hkept => hkept⟩
  | cons item items ih =>
    obtain ⟨middle, hmiddle, hrest⟩ := foldlM_cons_cases h
    rw [List.map_cons, List.nodup_cons] at hnodup
    obtain ⟨hitems, hothers⟩ := ih hnodup.2 hrest
    have hnone : item.2 ∉ builder.wrapper_ghost := by
      rw [hplain]
      exact AList.notMem_empty _
    rw [if_neg hnone] at hmiddle
    obtain ⟨hnode, hkept⟩ := Builder.nodes_of_add_node hmiddle
    refine ⟨fun other hother => ?_, fun other kept hother hbefore => ?_⟩
    · rcases List.mem_cons.mp hother with rfl | hmem
      · exact hothers _ _ hnodup.1 hnode
      · exact hitems other hmem
    · rw [List.map_cons, List.mem_cons, not_or] at hother
      exact hothers other kept hother.2 (hkept other kept hother.1 hbefore)

/-- A scope that is built without wrappers is mirrored by its graph. -/
theorem mirrored_of_build [PartialOrder S] [DecidableLE S] [PathSummary S TInner]
    {builder : SubgraphBuilder O S TOuter TInner} (hwired : builder.WellWired)
    (hplain : builder.wrapper_ghost = ∅) {iteration : IterationOrder ℕ} {eager : Bool} {fuel : ℕ}
    {built : Subgraph O S TOuter TInner} (h : builder.build iteration eager fuel = some built) :
    Mirrored built.pointstamp_tracker.builder built.children := by
  obtain ⟨reorganized, -, h⟩ := Option.bind_eq_some_iff.mp h
  obtain ⟨⟨children, topology⟩, hassembled, h⟩ := Option.bind_eq_some_iff.mp h
  obtain ⟨⟨tracker, summary⟩, hallocated, h⟩ := Option.bind_eq_some_iff.mp h
  have hfresh : Tracker.Allocated topology tracker := ⟨fuel, summary, hallocated⟩
  split at h
  case isFalse => cases h
  case isTrue =>
    cases h
    change Mirrored tracker.builder children
    rw [hfresh.fresh.builder_eq]
    obtain ⟨sorted, start, nodes, connected, hperm, hindices, hstart, hnodes, hconnected, hpushed⟩ :=
      assemble_cases hassembled
    have hsorted : builder.SortedChildren sorted := by
      refine ⟨hperm, fun index child hchild => ?_⟩
      have hmapped := congrArg (fun list => list[index]?) hindices
      simp only [List.getElem?_map, hchild, Option.map_some] at hmapped
      exact (List.getElem?_eq_some_iff.mp hmapped.symm).2.symm.trans (List.getElem_range _)
    have hzero := Builder.addedNode_of_add_node hstart
    have hadded := addedNodes_of_foldlM (nodup_zipIdx_drop _) hnodes
    have hunconnected : nodes.Unconnected :=
      hadded.unconnected (hzero.unconnected fun _ hmem => absurd hmem List.not_mem_nil)
    obtain ⟨hsummaries, -⟩ := nodes_of_foldlM hplain (nodup_zipIdx_drop _) hnodes
    -- the other edges are pushed to other lists
    have horiginal : ∀ (index : ℕ) (child : PerOperatorState O S TInner),
        connected[index]? = some child → ∃ original edges, (builder.with_outer sorted)[index]? = some original ∧
          child = { original with edges := edges } := by
      refine foldlM_invariant (P := fun children : List (PerOperatorState O S TInner) =>
        ∀ (index : ℕ) (child : PerOperatorState O S TInner), children[index]? = some child →
          ∃ original edges, (builder.with_outer sorted)[index]? = some original ∧
            child = { original with edges := edges }) ?_ ?_ hconnected
      · exact fun index child hchild => ⟨child, child.edges, hchild, rfl⟩
      · intro before edge after _ hbefore hpush index child hchild
        unfold SubgraphBuilder.push_edge at hpush
        split at hpush
        case h_1 => cases hpush
        case h_2 found hfound =>
          obtain ⟨ports, -, rfl⟩ := Option.map_eq_some_iff.mp hpush
          rcases Builder.getElem?_set_cases hchild with ⟨rfl, rfl⟩ | ⟨-, hold⟩
          · obtain ⟨original, edges, horiginal, rfl⟩ := hbefore _ found hfound
            exact ⟨original, ports, horiginal, rfl⟩
          · exact hbefore index child hold
    have hfirst : Mirrored nodes connected := by
      intro index child hindex hchild
      obtain ⟨original, edges, horiginal, rfl⟩ := horiginal index child hchild
      have hitem := mem_zipIdx_drop.mpr ⟨hindex, horiginal⟩
      rw [getElem?_with_outer hindex] at horiginal
      have hnumber := hsorted.index_eq index original horiginal
      have hghosts : original.ghost_edges = List.replicate original.outputs [] :=
        (hwired.fresh original (hperm.mem_iff.mp (List.mem_of_getElem? horiginal))
          (by rw [hnumber]; exact hindex)).ghost_edges
      refine ⟨hnumber, ?_, hsummaries _ hitem⟩
      have hshape := hadded.ports _ hitem (by rw [hplain]; exact AList.notMem_empty _)
      change nodes.edges[index]? = some original.ghost_edges
      rw [hghosts]
      exact hunconnected.edges_eq hshape
    exact foldlM_invariant (P := fun state : List (PerOperatorState O S TInner) × Builder S =>
      Mirrored state.2 state.1) hfirst (fun _ hbefore hpush => Mirrored.push_ghost_edge hbefore hpush) hpushed

/-- A child with other edges. -/
def Rewired (original child : PerOperatorState O S TInner) : Prop :=
  ∃ edges ghost_edges, child = { original with edges := edges, ghost_edges := ghost_edges }

/-- Each child is one that another list has in the same place, with other edges. -/
def AllRewired (originals children : List (PerOperatorState O S TInner)) : Prop :=
  ∀ (index : ℕ) (child : PerOperatorState O S TInner), children[index]? = some child →
    ∃ original, originals[index]? = some original ∧ Rewired original child

theorem AllRewired.set {originals children : List (PerOperatorState O S TInner)}
    (h : AllRewired originals children) {index : ℕ} {found : PerOperatorState O S TInner}
    (hfound : children[index]? = some found) {changed : PerOperatorState O S TInner}
    (hchanged : Rewired found changed) : AllRewired originals (children.set index changed) := by
  intro other child hchild
  rcases Builder.getElem?_set_cases hchild with ⟨rfl, rfl⟩ | ⟨-, hold⟩
  · obtain ⟨original, horiginal, edges, ghost_edges, rfl⟩ := h index found hfound
    obtain ⟨edges', ghost_edges', rfl⟩ := hchanged
    exact ⟨original, horiginal, edges', ghost_edges', rfl⟩
  · exact h other child hold

theorem AllRewired.push_edge {originals children after : List (PerOperatorState O S TInner)}
    (h : AllRewired originals children) {edge : Source × Target} (hpush : push_edge children edge = some after) :
    AllRewired originals after := by
  unfold SubgraphBuilder.push_edge at hpush
  split at hpush
  case h_1 => cases hpush
  case h_2 found hfound =>
    obtain ⟨edges, -, rfl⟩ := Option.map_eq_some_iff.mp hpush
    exact h.set hfound ⟨edges, found.ghost_edges, rfl⟩

theorem AllRewired.push_ghost_edge {originals : List (PerOperatorState O S TInner)}
    {state after : List (PerOperatorState O S TInner) × Builder S} (h : AllRewired originals state.1)
    {edge : Source × Target} (hpush : push_ghost_edge state edge = some after) :
    AllRewired originals after.1 := by
  unfold SubgraphBuilder.push_ghost_edge at hpush
  split at hpush
  case h_1 => cases hpush
  case h_2 found hfound =>
    obtain ⟨ghost_edges, -, hpush⟩ := Option.bind_eq_some_iff.mp hpush
    obtain ⟨topology, -, rfl⟩ := Option.map_eq_some_iff.mp hpush
    exact h.set hfound ⟨found.edges, ghost_edges, rfl⟩

/-- The children of a scope are those of its builder, each in the place of its number. -/
theorem originals_of_build [PartialOrder S] [DecidableLE S] [PathSummary S TInner]
    {builder : SubgraphBuilder O S TOuter TInner} {iteration : IterationOrder ℕ} {eager : Bool} {fuel : ℕ}
    {built : Subgraph O S TOuter TInner} (h : builder.build iteration eager fuel = some built) {index : ℕ}
    {child : PerOperatorState O S TInner} (hindex : index ≠ 0) (hchild : built.children[index]? = some child) :
    ∃ original ∈ builder.children, original.index = index ∧ Rewired original child := by
  obtain ⟨reorganized, -, h⟩ := Option.bind_eq_some_iff.mp h
  obtain ⟨⟨children, topology⟩, hassembled, h⟩ := Option.bind_eq_some_iff.mp h
  obtain ⟨allocated, -, h⟩ := Option.bind_eq_some_iff.mp h
  split at h
  case isFalse => cases h
  case isTrue =>
    cases h
    change children[index]? = some child at hchild
    obtain ⟨sorted, start, nodes, connected, hperm, hindices, -, -, hconnected, hpushed⟩ :=
      assemble_cases hassembled
    have hfirst : AllRewired (builder.with_outer sorted) connected :=
      foldlM_invariant (P := fun children => AllRewired (builder.with_outer sorted) children)
        (fun index child hchild => ⟨child, hchild, child.edges, child.ghost_edges, rfl⟩)
        (fun _ hbefore hpush => hbefore.push_edge hpush) hconnected
    have hall : AllRewired (builder.with_outer sorted) children :=
      foldlM_invariant (P := fun state : List (PerOperatorState O S TInner) × Builder S =>
        AllRewired (builder.with_outer sorted) state.1) hfirst
        (fun _ hbefore hpush => hbefore.push_ghost_edge hpush) hpushed
    obtain ⟨original, horiginal, hrewired⟩ := hall index child hchild
    rw [getElem?_with_outer hindex] at horiginal
    have hmapped := congrArg (fun list => list[index]?) hindices
    simp only [List.getElem?_map, horiginal, Option.map_some] at hmapped
    have hnumber := (List.getElem?_eq_some_iff.mp hmapped.symm).2.symm.trans (List.getElem_range _)
    exact ⟨original, hperm.mem_iff.mp (List.mem_of_getElem? horiginal), hnumber, hrewired⟩

end SubgraphBuilder

end Timely
