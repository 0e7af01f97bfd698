/-
  Timely/WellWired.lean
  =====================
  **Building wires a scope.**

  `build` adds a node to the tracker for each child that is not a wrapper, and
  pads the wrappers that lie between them.  A wrapper that comes last has no
  node at all, and is the one thing that keeps the tables of the tracker from
  being as long as that of the children.
-/
import Timely.Indices
import Timely.Reorganize

set_option linter.unusedSectionVars false

namespace Timely

open Library

/-! ### Adding nodes and edges -/

namespace Builder

variable {S : Type}

/-- No output has an edge. -/
def Unconnected (builder : Builder S) : Prop :=
  ∀ outputs ∈ builder.edges, ∀ targets ∈ outputs, targets = []

theorem Unconnected.edgesExist {builder : Builder S} (h : builder.Unconnected) : builder.EdgesExist := by
  intro outputs houtputs targets htargets target htarget
  rw [h outputs houtputs targets htargets] at htarget
  exact absurd htarget List.not_mem_nil

/-- Adding a node sets its numbers of ports, and leaves those of the others. -/
structure AddedNode (builder : Builder S) (index inputs outputs : ℕ) (after : Builder S) : Prop where
  ports : after.shape[index]? = some (inputs, outputs)
  others : ∀ (other : ℕ) (ports : ℕ × ℕ), other ≠ index → builder.shape[other]? = some ports →
    after.shape[other]? = some ports
  padding : ∀ (other : ℕ) (ports : ℕ × ℕ), other ≠ index → after.shape[other]? = some ports →
    builder.shape[other]? = some ports ∨ ports = (0, 0)
  length : after.shape.length = max builder.shape.length (index + 1)
  unconnected : builder.Unconnected → after.Unconnected

theorem addedNode_of_add_node {builder after : Builder S} {index inputs outputs : ℕ}
    {summary : List (List (Antichain S))} (h : builder.add_node index inputs outputs summary = some after) :
    AddedNode builder index inputs outputs after := by
  unfold add_node at h
  split at h
  case isFalse => cases h
  case isTrue =>
    cases h
    have hlength : (builder.pad index).shape.length = max builder.shape.length (index + 1) := by
      simp only [pad, List.length_append, List.length_replicate]
      omega
    refine ⟨?_, ?_, ?_, ?_, ?_⟩
    · exact List.getElem?_set_self (by rw [hlength]; omega)
    · intro other ports hne hports
      rw [List.getElem?_set_ne hne.symm]
      exact (List.getElem?_append_left (List.getElem?_eq_some_iff.mp hports).1).trans hports
    · intro other ports hne hports
      rw [List.getElem?_set_ne hne.symm] at hports
      by_cases hold : other < builder.shape.length
      · exact Or.inl ((List.getElem?_append_left hold).symm.trans hports)
      · right
        simp only [pad] at hports
        rw [List.getElem?_append_right (Nat.le_of_not_lt hold)] at hports
        exact (List.mem_replicate.mp (List.mem_of_getElem? hports)).2
    · rw [List.length_set, hlength]
    · intro hunconnected
      have hpadded : ∀ kept ∈ (builder.pad index).edges, ∀ targets ∈ kept, targets = [] := by
        intro kept hkept targets htargets
        rcases List.mem_append.mp hkept with hold | hnew
        · exact hunconnected kept hold targets htargets
        · rw [(List.mem_replicate.mp hnew).2] at htargets
          exact absurd htargets List.not_mem_nil
      intro kept hkept targets htargets
      rcases List.mem_or_eq_of_mem_set hkept with hold | rfl
      · exact hpadded kept hold targets htargets
      · split at htargets
        · -- the edges of the node are kept
          cases hlookup : (builder.pad index).edges[index]? with
          | none =>
            rw [hlookup] at htargets
            exact absurd htargets List.not_mem_nil
          | some kept =>
            rw [hlookup] at htargets
            exact hpadded kept (List.mem_of_getElem? hlookup) targets htargets
        · exact (List.mem_replicate.mp htargets).2

/-- A node with an input has a first input. -/
theorem has_first_target {builder : Builder S} {target : Target}
    (h : builder.has_location (Location.from_target target) = true) :
    builder.has_location (Location.new_target target.node 0) = true := by
  unfold has_location Location.from_target at h
  split at h
  case h_1 => cases h
  case h_2 ports hports =>
    exact (has_target_iff hports).mpr (Nat.zero_lt_of_lt (of_decide_eq_true h))

theorem has_location_congr {builder after : Builder S} (h : after.shape = builder.shape) :
    after.has_location = builder.has_location := by
  funext location
  unfold has_location
  rw [h]

/-- Adding an edge asserts that its target exists. -/
structure AddedEdge (builder : Builder S) (target : Target) (after : Builder S) : Prop where
  shape : after.shape = builder.shape
  target : builder.has_location (Location.from_target target) = true
  edges : builder.EdgesExist → after.EdgesExist

theorem addedEdge_of_add_edge {builder after : Builder S} {source : Source} {target : Target}
    (h : builder.add_edge source target = some after) : AddedEdge builder target after := by
  unfold add_edge at h
  split at h
  case isFalse => cases h
  case isTrue hlocations =>
    cases h
    have htarget := (Bool.and_eq_true_iff.mp hlocations).2
    refine ⟨rfl, htarget, ?_⟩
    intro hexist outputs houtputs targets htargets other hother
    obtain ⟨node, hnode⟩ := List.mem_iff_getElem?.mp houtputs
    rw [List.getElem?_modify] at hnode
    obtain ⟨before, hbefore, rfl⟩ := Option.map_eq_some_iff.mp hnode
    have hold := hexist before (List.mem_of_getElem? hbefore)
    split at htargets
    · obtain ⟨port, hport⟩ := List.mem_iff_getElem?.mp htargets
      rw [List.getElem?_modify] at hport
      obtain ⟨kept, hkept, rfl⟩ := Option.map_eq_some_iff.mp hport
      split at hother
      · rcases List.mem_append.mp hother with hmem | hmem
        · exact hold kept (List.mem_of_getElem? hkept) other hmem
        · rw [List.mem_singleton.mp hmem]
          exact htarget
      · exact hold kept (List.mem_of_getElem? hkept) other hother
    · exact hold targets htargets other hother

end Builder

namespace SubgraphBuilder

variable {O S TOuter TInner : Type}
  [PartialOrder TOuter] [DecidableLE TOuter] [DecidableEq TOuter] [Ord TOuter]
  [LinearExtension TOuter]
  [PartialOrder TInner] [DecidableLE TInner] [DecidableEq TInner] [Ord TInner]
  [LinearExtension TInner] [Refines TOuter TInner]

/-! ### Builders that are wired -/

/-- A child as it is made for an operator: no edges yet, and a batch for each of its ports. -/
structure FreshChild (child : PerOperatorState O S TInner) : Prop where
  edges : child.edges = List.replicate child.outputs []
  ghost_edges : child.ghost_edges = List.replicate child.outputs []
  frontiers : child.shared_progress.frontiers.length = child.inputs
  consumeds : child.shared_progress.consumeds.length = child.inputs
  internals : child.shared_progress.internals.length = child.outputs
  produceds : child.shared_progress.produceds.length = child.outputs

/-- A wrapper that shares a batch for each port of a ghost. -/
structure WrapsGhost (wrapper ghost : PerOperatorState O S TInner) : Prop where
  frontiers : batch_counts wrapper.shared_progress.wrapper_frontiers ghost.index = some ghost.inputs
  consumeds : batch_counts wrapper.shared_progress.wrapper_consumeds ghost.index = some ghost.inputs
  internals : batch_counts wrapper.shared_progress.wrapper_internals ghost.index = some ghost.outputs
  produceds : batch_counts wrapper.shared_progress.wrapper_produceds ghost.index = some ghost.outputs

/-- A child that becomes a node of the tracker. -/
structure NodeChild (builder : SubgraphBuilder O S TOuter TInner) (child : PerOperatorState O S TInner) :
    Prop where
  mem : child ∈ builder.children
  inner : child.index ≠ 0
  not_wrapper : child.index ∉ builder.wrapper_ghost

/-- The children are fresh, edges lead to children, and wrappers and ghosts belong together. -/
structure WellWired (builder : SubgraphBuilder O S TOuter TInner) : Prop where
  fresh : ∀ child ∈ builder.children, child.index ≠ 0 → FreshChild child
  targets : ∀ edge ∈ builder.edge_stash, ∃ child ∈ builder.children, child.index = edge.2.node
  outer : 0 ∉ builder.wrapper_ghost
  silent : ∀ child ∈ builder.children, child.index ∈ builder.wrapper_ghost →
    child.shared_progress.Silent
  wraps : ∀ wrapper ∈ builder.children, ∀ ghosts,
    builder.wrapper_ghost.lookup wrapper.index = some ghosts → ∀ ghost ∈ ghosts,
      ∃ child, builder.NodeChild child ∧ child.index = ghost ∧ WrapsGhost wrapper child
  ghosts : ∀ ghost wrapper, builder.ghost_wrapper.lookup ghost = some wrapper →
    (∃ child ∈ builder.children, child.index = wrapper) ∧
      ∃ ghosts, builder.wrapper_ghost.lookup wrapper = some ghosts ∧ ghost ∈ ghosts

instance (child : PerOperatorState O S TInner) : Decidable (FreshChild child) :=
  decidable_of_iff (child.edges = List.replicate child.outputs [] ∧
      child.ghost_edges = List.replicate child.outputs [] ∧
      child.shared_progress.frontiers.length = child.inputs ∧
      child.shared_progress.consumeds.length = child.inputs ∧
      child.shared_progress.internals.length = child.outputs ∧
      child.shared_progress.produceds.length = child.outputs)
    ⟨fun ⟨hedges, hghosts, hfrontiers, hconsumeds, hinternals, hproduceds⟩ =>
        ⟨hedges, hghosts, hfrontiers, hconsumeds, hinternals, hproduceds⟩,
      fun h => ⟨h.edges, h.ghost_edges, h.frontiers, h.consumeds, h.internals, h.produceds⟩⟩

instance (wrapper ghost : PerOperatorState O S TInner) : Decidable (WrapsGhost wrapper ghost) :=
  decidable_of_iff
    (batch_counts wrapper.shared_progress.wrapper_frontiers ghost.index = some ghost.inputs ∧
      batch_counts wrapper.shared_progress.wrapper_consumeds ghost.index = some ghost.inputs ∧
      batch_counts wrapper.shared_progress.wrapper_internals ghost.index = some ghost.outputs ∧
      batch_counts wrapper.shared_progress.wrapper_produceds ghost.index = some ghost.outputs)
    ⟨fun ⟨hfrontiers, hconsumeds, hinternals, hproduceds⟩ =>
        ⟨hfrontiers, hconsumeds, hinternals, hproduceds⟩,
      fun h => ⟨h.frontiers, h.consumeds, h.internals, h.produceds⟩⟩

instance (progress : SharedProgress TInner) : Decidable progress.Silent :=
  decidable_of_iff ((∀ batch ∈ progress.consumeds, batch.updates = []) ∧
      (∀ batch ∈ progress.internals, batch.updates = []) ∧ ∀ batch ∈ progress.produceds, batch.updates = [])
    ⟨fun ⟨hconsumeds, hinternals, hproduceds⟩ => ⟨hconsumeds, hinternals, hproduceds⟩,
      fun h => ⟨h.consumeds, h.internals, h.produceds⟩⟩

/-- The children of a builder and the tables of its wrappers are all that has to be looked at. -/
theorem wellWired_iff {builder : SubgraphBuilder O S TOuter TInner} :
    ((∀ child ∈ builder.children, child.index ≠ 0 → FreshChild child) ∧
      (∀ edge ∈ builder.edge_stash, ∃ child ∈ builder.children, child.index = edge.2.node) ∧
      0 ∉ builder.wrapper_ghost ∧
      (∀ child ∈ builder.children, child.index ∈ builder.wrapper_ghost → child.shared_progress.Silent) ∧
      (∀ wrapper ∈ builder.children, ∀ ghost ∈ (builder.wrapper_ghost.lookup wrapper.index).getD [],
        ∃ child ∈ builder.children, child.index ≠ 0 ∧ child.index ∉ builder.wrapper_ghost ∧
          child.index = ghost ∧ WrapsGhost wrapper child) ∧
      ∀ ghost ∈ builder.ghost_wrapper.keys, ∃ child ∈ builder.children,
        builder.ghost_wrapper.lookup ghost = some child.index ∧
          ghost ∈ (builder.wrapper_ghost.lookup child.index).getD []) ↔ builder.WellWired := by
  constructor
  · rintro ⟨hfresh, htargets, houter, hsilent, hwraps, hghosts⟩
    refine ⟨hfresh, htargets, houter, hsilent, ?_, ?_⟩
    · intro wrapper hwrapper ghosts hlookup ghost hghost
      obtain ⟨child, hmem, hinner, hnode, hindex, hwrap⟩ := hwraps wrapper hwrapper ghost
        (by rw [hlookup]; exact hghost)
      exact ⟨child, ⟨hmem, hinner, hnode⟩, hindex, hwrap⟩
    · intro ghost wrapper hlookup
      obtain ⟨child, hmem, hfound, hghost⟩ := hghosts ghost
        (AList.lookup_isSome.mp (Option.isSome_of_eq_some hlookup))
      obtain rfl := Option.some.inj (hlookup.symm.trans hfound)
      refine ⟨⟨child, hmem, rfl⟩, ?_⟩
      cases hghosts' : builder.wrapper_ghost.lookup child.index with
      | none =>
        rw [hghosts'] at hghost
        exact absurd hghost List.not_mem_nil
      | some ghosts =>
        rw [hghosts'] at hghost
        exact ⟨ghosts, rfl, hghost⟩
  · intro h
    refine ⟨h.fresh, h.targets, h.outer, h.silent, ?_, ?_⟩
    · intro wrapper hwrapper ghost hghost
      cases hlookup : builder.wrapper_ghost.lookup wrapper.index with
      | none =>
        rw [hlookup] at hghost
        exact absurd hghost List.not_mem_nil
      | some ghosts =>
        rw [hlookup] at hghost
        obtain ⟨child, hchild, hindex, hwrap⟩ := h.wraps wrapper hwrapper ghosts hlookup ghost hghost
        exact ⟨child, hchild.mem, hchild.inner, hchild.not_wrapper, hindex, hwrap⟩
    · intro ghost hghost
      obtain ⟨wrapper, hlookup⟩ := Option.isSome_iff_exists.mp (AList.lookup_isSome.mpr hghost)
      obtain ⟨⟨child, hmem, rfl⟩, ghosts, hghosts, hin⟩ := h.ghosts ghost wrapper hlookup
      exact ⟨child, hmem, hlookup, by rw [hghosts]; exact hin⟩

instance (builder : SubgraphBuilder O S TOuter TInner) : Decidable builder.WellWired :=
  decidable_of_iff _ wellWired_iff

/-! ### Adding the nodes -/

/-- What adding the nodes of a list of children does. -/
structure AddedNodes (builder : SubgraphBuilder O S TOuter TInner)
    (items : List (PerOperatorState O S TInner × ℕ)) (start nodes : Builder S) : Prop where
  ports : ∀ item ∈ items, item.2 ∉ builder.wrapper_ghost →
    nodes.shape[item.2]? = some (item.1.inputs, item.1.outputs)
  others : ∀ (other : ℕ) (ports : ℕ × ℕ), other ∉ items.map Prod.snd →
    start.shape[other]? = some ports → nodes.shape[other]? = some ports
  wrappers : ∀ (other : ℕ) (ports : ℕ × ℕ), other ∈ builder.wrapper_ghost →
    nodes.shape[other]? = some ports → start.shape[other]? = some ports ∨ ports = (0, 0)
  length : ∀ bound, start.shape.length ≤ bound → (∀ item ∈ items, item.2 < bound) →
    nodes.shape.length ≤ bound
  unconnected : start.Unconnected → nodes.Unconnected

theorem addedNodes_of_foldlM {builder : SubgraphBuilder O S TOuter TInner}
    {items : List (PerOperatorState O S TInner × ℕ)} (hnodup : (items.map Prod.snd).Nodup)
    {start nodes : Builder S}
    (h : items.foldlM (fun topology child =>
      if child.2 ∈ builder.wrapper_ghost then some topology
      else topology.add_node child.2 child.1.inputs child.1.outputs child.1.internal_summary) start =
        some nodes) : AddedNodes builder items start nodes := by
  induction items generalizing start with
  | nil =>
    rw [List.foldlM_nil] at h
    cases h
    exact ⟨fun _ hitem => absurd hitem List.not_mem_nil, fun _ _ _ hports => hports,
      fun _ _ _ hports => Or.inl hports, fun _ hlength _ => hlength, fun hunconnected => hunconnected⟩
  | cons item items ih =>
    obtain ⟨middle, hmiddle, hrest⟩ := foldlM_cons_cases h
    rw [List.map_cons, List.nodup_cons] at hnodup
    have hnodes := ih hnodup.2 hrest
    split at hmiddle
    case isTrue hwrapper =>
      -- a wrapper is left out
      cases hmiddle
      refine ⟨?_, ?_, hnodes.wrappers, ?_, hnodes.unconnected⟩
      · intro other hother hnot
        rcases List.mem_cons.mp hother with rfl | hmem
        · exact absurd hwrapper hnot
        · exact hnodes.ports other hmem hnot
      · intro other ports hother hports
        exact hnodes.others other ports (fun hmem => hother (List.mem_cons_of_mem _ hmem)) hports
      · intro bound hlength hitems
        exact hnodes.length bound hlength fun other hother => hitems other (List.mem_cons_of_mem _ hother)
    case isFalse hnode =>
      have hadded := Builder.addedNode_of_add_node hmiddle
      refine ⟨?_, ?_, ?_, ?_, fun hunconnected => hnodes.unconnected (hadded.unconnected hunconnected)⟩
      · intro other hother hnot
        rcases List.mem_cons.mp hother with rfl | hmem
        · exact hnodes.others _ _ hnodup.1 hadded.ports
        · exact hnodes.ports other hmem hnot
      · intro other ports hother hports
        rw [List.map_cons, List.mem_cons, not_or] at hother
        exact hnodes.others other ports hother.2 (hadded.others other ports hother.1 hports)
      · intro other ports hwrapper hports
        rcases hnodes.wrappers other ports hwrapper hports with hold | hzero
        · exact hadded.padding other ports (fun heq => hnode (heq ▸ hwrapper)) hold
        · exact Or.inr hzero
      · intro bound hlength hitems
        refine hnodes.length bound ?_ fun other hother => hitems other (List.mem_cons_of_mem _ hother)
        rw [hadded.length]
        exact max_le hlength (hitems item List.mem_cons_self)

theorem mem_zipIdx_drop {α : Type} {list : List α} {value : α} {index : ℕ} :
    (value, index) ∈ list.zipIdx.drop 1 ↔ index ≠ 0 ∧ list[index]? = some value := by
  constructor
  · intro hmem
    obtain ⟨position, hposition⟩ := List.mem_iff_getElem?.mp hmem
    rw [List.getElem?_drop, List.getElem?_zipIdx] at hposition
    obtain ⟨found, hfound, heq⟩ := Option.map_eq_some_iff.mp hposition
    obtain ⟨rfl, hindex⟩ := Prod.mk.inj heq
    have hindex' : index = 1 + position := by omega
    subst hindex'
    exact ⟨by omega, hfound⟩
  · rintro ⟨hindex, hvalue⟩
    refine List.mem_iff_getElem?.mpr ⟨index - 1, ?_⟩
    have hposition : 1 + (index - 1) = index := by omega
    rw [List.getElem?_drop, List.getElem?_zipIdx, hposition, hvalue, Option.map_some]
    simp

theorem nodup_zipIdx_drop {α : Type} (list : List α) : ((list.zipIdx.drop 1).map Prod.snd).Nodup := by
  rw [List.map_drop, List.zipIdx_map_snd]
  exact (List.nodup_range').sublist (List.drop_sublist 1 _)

/-! ### Pushing the edges -/

/-- Every target is that of one of the edges. -/
def LeadsAlong (ports : List (List Target)) (edges : List (Source × Target)) : Prop :=
  ∀ targets ∈ ports, ∀ target ∈ targets, ∃ edge ∈ edges, edge.2 = target

theorem leadsAlong_replicate (count : ℕ) (edges : List (Source × Target)) :
    LeadsAlong (List.replicate count []) edges := by
  intro targets htargets target htarget
  rw [(List.mem_replicate.mp htargets).2] at htarget
  exact absurd htarget List.not_mem_nil

theorem LeadsAlong.push_target {ports after : List (List Target)} {edges : List (Source × Target)}
    (h : LeadsAlong ports edges) {edge : Source × Target} (hedge : edge ∈ edges)
    (hpush : push_target ports edge = some after) :
    LeadsAlong after edges ∧ after.length = ports.length := by
  unfold SubgraphBuilder.push_target at hpush
  split at hpush
  case isFalse => cases hpush
  case isTrue =>
    cases hpush
    refine ⟨?_, List.length_modify _ _ _⟩
    intro targets htargets target htarget
    obtain ⟨port, hport⟩ := List.mem_iff_getElem?.mp htargets
    rw [List.getElem?_modify] at hport
    obtain ⟨before, hbefore, rfl⟩ := Option.map_eq_some_iff.mp hport
    split at htarget
    · rcases List.mem_append.mp htarget with hold | hnew
      · exact h before (List.mem_of_getElem? hbefore) target hold
      · exact ⟨edge, hedge, (List.mem_singleton.mp hnew).symm⟩
    · exact h before (List.mem_of_getElem? hbefore) target htarget

/-- What pushing edges leaves of a child, with the numbers of its ports. -/
def skeleton (child : PerOperatorState O S TInner) : PerOperatorState O S TInner × ℕ × ℕ :=
  ({ child with edges := [], ghost_edges := [] }, child.edges.length, child.ghost_edges.length)

/-- Children that differ in their edges, and these are among the given ones. -/
structure Joined (edges ghost_edges : List (Source × Target))
    (children after : List (PerOperatorState O S TInner)) : Prop where
  skeletons : after.map skeleton = children.map skeleton
  edges : ∀ child ∈ after, LeadsAlong child.edges edges
  ghost_edges : ∀ child ∈ after, LeadsAlong child.ghost_edges ghost_edges

theorem Joined.push_edge {edges ghost_edges : List (Source × Target)}
    {children before after : List (PerOperatorState O S TInner)}
    (h : Joined edges ghost_edges children before) {edge : Source × Target} (hedge : edge ∈ edges)
    (hpush : push_edge before edge = some after) : Joined edges ghost_edges children after := by
  unfold SubgraphBuilder.push_edge at hpush
  split at hpush
  case h_1 => cases hpush
  case h_2 child hchild =>
    obtain ⟨ports, hports, rfl⟩ := Option.map_eq_some_iff.mp hpush
    have hmem := List.mem_of_getElem? hchild
    obtain ⟨hleads, hlength⟩ := (h.edges child hmem).push_target hedge hports
    refine ⟨(map_set_of_eq hchild ?_).trans h.skeletons, ?_, ?_⟩
    · unfold skeleton
      rw [hlength]
    · intro other hother
      rcases List.mem_or_eq_of_mem_set hother with hold | rfl
      · exact h.edges other hold
      · exact hleads
    · intro other hother
      rcases List.mem_or_eq_of_mem_set hother with hold | rfl
      · exact h.ghost_edges other hold
      · exact h.ghost_edges child hmem

theorem Joined.push_ghost_edge {edges ghost_edges : List (Source × Target)}
    {children : List (PerOperatorState O S TInner)}
    {before after : List (PerOperatorState O S TInner) × Builder S}
    (h : Joined edges ghost_edges children before.1) {edge : Source × Target}
    (hedge : edge ∈ ghost_edges) (hpush : push_ghost_edge before edge = some after) :
    Joined edges ghost_edges children after.1 ∧ Builder.AddedEdge before.2 edge.2 after.2 := by
  unfold SubgraphBuilder.push_ghost_edge at hpush
  split at hpush
  case h_1 => cases hpush
  case h_2 child hchild =>
    obtain ⟨ports, hports, hpush⟩ := Option.bind_eq_some_iff.mp hpush
    obtain ⟨extended, hextended, rfl⟩ := Option.map_eq_some_iff.mp hpush
    have hmem := List.mem_of_getElem? hchild
    obtain ⟨hleads, hlength⟩ := (h.ghost_edges child hmem).push_target hedge hports
    refine ⟨⟨(map_set_of_eq hchild ?_).trans h.skeletons, ?_, ?_⟩,
      Builder.addedEdge_of_add_edge hextended⟩
    · unfold skeleton
      rw [hlength]
    · intro other hother
      rcases List.mem_or_eq_of_mem_set hother with hold | rfl
      · exact h.edges other hold
      · exact h.edges child hmem
    · intro other hother
      rcases List.mem_or_eq_of_mem_set hother with hold | rfl
      · exact h.ghost_edges other hold
      · exact hleads

/-- Pushing ghost edges finds their targets, and adds nothing but edges to the graph. -/
theorem joined_of_push_ghost_edges {edges ghost_edges pushed : List (Source × Target)}
    (hpushed : ∀ edge ∈ pushed, edge ∈ ghost_edges)
    {children : List (PerOperatorState O S TInner)}
    {before after : List (PerOperatorState O S TInner) × Builder S}
    (hjoined : Joined edges ghost_edges children before.1) (hexist : before.2.EdgesExist)
    (h : pushed.foldlM push_ghost_edge before = some after) :
    Joined edges ghost_edges children after.1 ∧ after.2.shape = before.2.shape ∧ after.2.EdgesExist ∧
      ∀ edge ∈ pushed, before.2.has_location (Location.from_target edge.2) = true := by
  induction pushed generalizing before with
  | nil =>
    rw [List.foldlM_nil] at h
    cases h
    exact ⟨hjoined, rfl, hexist, fun _ hedge => absurd hedge List.not_mem_nil⟩
  | cons edge pushed ih =>
    obtain ⟨middle, hmiddle, hrest⟩ := foldlM_cons_cases h
    obtain ⟨hnext, hadded⟩ := hjoined.push_ghost_edge (hpushed edge List.mem_cons_self) hmiddle
    obtain ⟨hlast, hshape, hlastExist, hlocated⟩ := ih
      (fun other hother => hpushed other (List.mem_cons_of_mem _ hother)) hnext (hadded.edges hexist) hrest
    refine ⟨hlast, hshape.trans hadded.shape, hlastExist, ?_⟩
    intro other hother
    rcases List.mem_cons.mp hother with rfl | hmem
    · exact hadded.target
    · rw [← Builder.has_location_congr hadded.shape]
      exact hlocated other hmem

/-! ### Assembling -/

/-- The children with child zero replaced by the outer scope. -/
def with_outer (builder : SubgraphBuilder O S TOuter TInner)
    (sorted : List (PerOperatorState O S TInner)) : List (PerOperatorState O S TInner) :=
  sorted.set 0 (PerOperatorState.empty O S TInner builder.output_capabilities.length
    builder.input_messages.length)

theorem getElem?_with_outer {builder : SubgraphBuilder O S TOuter TInner}
    {sorted : List (PerOperatorState O S TInner)} {index : ℕ} (h : index ≠ 0) :
    (builder.with_outer sorted)[index]? = sorted[index]? :=
  List.getElem?_set_ne h.symm

/-- The children of a builder in the order of their indices. -/
structure SortedChildren (builder : SubgraphBuilder O S TOuter TInner)
    (sorted : List (PerOperatorState O S TInner)) : Prop where
  perm : sorted.Perm builder.children
  index_eq : ∀ (index : ℕ) (child : PerOperatorState O S TInner), sorted[index]? = some child →
    child.index = index

theorem SortedChildren.of_mem {builder : SubgraphBuilder O S TOuter TInner}
    {sorted : List (PerOperatorState O S TInner)} (h : builder.SortedChildren sorted)
    {child : PerOperatorState O S TInner} (hchild : child ∈ builder.children) :
    sorted[child.index]? = some child := by
  obtain ⟨position, hposition⟩ := List.mem_iff_getElem?.mp (h.perm.mem_iff.mpr hchild)
  rw [h.index_eq position child hposition]
  exact hposition

/-- What `assemble` makes of a builder: children with edges, and a graph with the ports of all that
    are no wrappers. -/
structure Assembled (builder : SubgraphBuilder O S TOuter TInner) (edges : List (Source × Target))
    (sorted children : List (PerOperatorState O S TInner)) (topology : Builder S) : Prop
    extends SortedChildren builder sorted where
  joined : Joined builder.edge_stash edges (builder.with_outer sorted) children
  scope : topology.shape[0]? =
    some (builder.output_capabilities.length, builder.input_messages.length)
  ports : ∀ (index : ℕ) (child : PerOperatorState O S TInner), index ≠ 0 → sorted[index]? = some child →
    index ∉ builder.wrapper_ghost → topology.shape[index]? = some (child.inputs, child.outputs)
  wrappers : ∀ (index : ℕ) (ports : ℕ × ℕ), index ≠ 0 → index ∈ builder.wrapper_ghost →
    topology.shape[index]? = some ports → ports = (0, 0)
  length : sorted ≠ [] → topology.shape.length ≤ sorted.length
  exist : topology.EdgesExist
  located : ∀ edge ∈ edges, topology.has_location (Location.from_target edge.2) = true

theorem WellWired.joined {builder : SubgraphBuilder O S TOuter TInner} (hwired : builder.WellWired)
    {sorted : List (PerOperatorState O S TInner)} (hsorted : builder.SortedChildren sorted)
    (edges : List (Source × Target)) :
    Joined builder.edge_stash edges (builder.with_outer sorted) (builder.with_outer sorted) := by
  have hempty : ∀ child ∈ builder.with_outer sorted, child.edges = List.replicate child.outputs [] ∧
      child.ghost_edges = List.replicate child.outputs [] := by
    intro child hchild
    obtain ⟨index, hposition⟩ := List.mem_iff_getElem?.mp hchild
    rcases Builder.getElem?_set_cases hposition with ⟨_, rfl⟩ | ⟨hne, hold⟩
    · exact ⟨rfl, rfl⟩
    · have hmade := hwired.fresh child (hsorted.perm.mem_iff.mp (List.mem_of_getElem? hold))
        (by rw [hsorted.index_eq index child hold]; exact hne.symm)
      exact ⟨hmade.edges, hmade.ghost_edges⟩
  refine ⟨rfl, fun child hchild => ?_, fun child hchild => ?_⟩
  · rw [(hempty child hchild).1]
    exact leadsAlong_replicate _ _
  · rw [(hempty child hchild).2]
    exact leadsAlong_replicate _ _

theorem assembled_of_assemble {builder : SubgraphBuilder O S TOuter TInner} (hwired : builder.WellWired)
    {edges : List (Source × Target)} {children : List (PerOperatorState O S TInner)}
    {topology : Builder S} (h : builder.assemble edges = some (children, topology)) :
    ∃ sorted, Assembled builder edges sorted children topology := by
  obtain ⟨sorted, start, nodes, connected, hperm, hindices, hstart, hnodes, hconnected, h⟩ :=
    assemble_cases h
  have hsorted : builder.SortedChildren sorted := by
    refine ⟨hperm, fun index child hchild => ?_⟩
    have hmapped := congrArg (fun list => list[index]?) hindices
    simp only [List.getElem?_map, hchild, Option.map_some] at hmapped
    exact (List.getElem?_eq_some_iff.mp hmapped.symm).2.symm.trans (List.getElem_range _)
  change builder.add_nodes (builder.with_outer sorted) start = some nodes at hnodes
  change builder.edge_stash.foldlM push_edge (builder.with_outer sorted) = some connected at hconnected
  have hzero := Builder.addedNode_of_add_node hstart
  have hadded := addedNodes_of_foldlM (nodup_zipIdx_drop _) hnodes
  have hjoined : Joined builder.edge_stash edges (builder.with_outer sorted) connected :=
    foldlM_invariant (hwired.joined hsorted edges)
      (fun hedge hbefore hpush => hbefore.push_edge hedge hpush) hconnected
  have hunconnected : nodes.Unconnected :=
    hadded.unconnected (hzero.unconnected fun _ hmem => absurd hmem List.not_mem_nil)
  obtain ⟨hlast, hshape, hexist, hlocated⟩ :=
    joined_of_push_ghost_edges (fun _ hedge => hedge) hjoined hunconnected.edgesExist h
  change topology.shape = nodes.shape at hshape
  refine ⟨sorted, hsorted, hlast, ?_, ?_, ?_, ?_, hexist, ?_⟩
  · rw [hshape]
    refine hadded.others 0 _ (fun hmem => ?_) hzero.ports
    obtain ⟨⟨child, position⟩, hitem, heq⟩ := List.mem_map.mp hmem
    exact (mem_zipIdx_drop.mp hitem).1 heq
  · intro index child hindex hchild hwrapper
    rw [hshape]
    refine hadded.ports (child, index) (mem_zipIdx_drop.mpr ⟨hindex, ?_⟩) hwrapper
    rw [getElem?_with_outer hindex]
    exact hchild
  · intro index ports hindex hwrapper hports
    rw [hshape] at hports
    rcases hadded.wrappers index ports hwrapper hports with hold | hnone
    · -- the first node has been added to an empty graph
      rcases hzero.padding index ports hindex hold with hnew | hnone
      · exact absurd hnew (by simp [Builder.new])
      · exact hnone
    · exact hnone
  · intro hnonempty
    rw [hshape]
    refine hadded.length sorted.length ?_ ?_
    · rw [hzero.length]
      exact max_le (Nat.zero_le _) (List.length_pos_iff.mpr hnonempty)
    · rintro ⟨child, index⟩ hitem
      have hfound := (mem_zipIdx_drop.mp hitem).2
      exact (List.getElem?_eq_some_iff.mp hfound).1.trans_eq (List.length_set ..)
  · intro edge hedge
    rw [Builder.has_location_congr hshape]
    exact hlocated edge hedge

/-! ### Wired children -/

/-- A child that has only been given edges. -/
structure Kept (child original : PerOperatorState O S TInner) : Prop where
  index : child.index = original.index
  shared : child.shared_progress = original.shared_progress
  edges : child.edges.length = original.edges.length
  ghost_edges : child.ghost_edges.length = original.ghost_edges.length

theorem kept_of_skeleton {child original : PerOperatorState O S TInner}
    (h : skeleton child = skeleton original) : Kept child original := by
  obtain ⟨hchild, hlengths⟩ := Prod.mk.inj h
  obtain ⟨hedges, hghosts⟩ := Prod.mk.inj hlengths
  have hindex := congrArg PerOperatorState.index hchild
  have hshared := congrArg PerOperatorState.shared_progress hchild
  exact ⟨hindex, hshared, hedges, hghosts⟩

namespace Assembled

variable {builder : SubgraphBuilder O S TOuter TInner} {edges : List (Source × Target)}
  {sorted children : List (PerOperatorState O S TInner)} {topology : Builder S}

theorem exists_original (h : Assembled builder edges sorted children topology) {index : ℕ}
    {child : PerOperatorState O S TInner} (hchild : children[index]? = some child) :
    ∃ original, (builder.with_outer sorted)[index]? = some original ∧ Kept child original := by
  have hmapped := congrArg (fun list => list[index]?) h.joined.skeletons
  simp only [List.getElem?_map, hchild, Option.map_some] at hmapped
  obtain ⟨original, horiginal, hskeleton⟩ := Option.map_eq_some_iff.mp hmapped.symm
  exact ⟨original, horiginal, kept_of_skeleton hskeleton.symm⟩

theorem length_children (h : Assembled builder edges sorted children topology) :
    children.length = sorted.length := by
  have hlength := congrArg List.length h.joined.skeletons
  rw [List.length_map, List.length_map] at hlength
  exact hlength.trans (List.length_set ..)

/-- The tables of the tracker are as long as that of the children if the last child is no wrapper. -/
theorem length_shape (h : Assembled builder edges sorted children topology)
    (hmany : 2 ≤ builder.children.length) (hlast : builder.children.length - 1 ∉ builder.wrapper_ghost) :
    topology.shape.length = sorted.length := by
  have hlength := h.perm.length_eq
  have hnonempty : sorted ≠ [] := by
    intro hnil
    rw [hnil, List.length_nil] at hlength
    omega
  refine Nat.le_antisymm (h.length hnonempty) ?_
  have hindex : builder.children.length - 1 < sorted.length := by omega
  have hports := h.ports _ _ (by omega) (List.getElem?_eq_getElem hindex) hlast
  have hfound := (List.getElem?_eq_some_iff.mp hports).1
  omega

/-- The ports of a child that is a node of the tracker. -/
theorem ports_of_node (h : Assembled builder edges sorted children topology)
    {child : PerOperatorState O S TInner} (hchild : builder.NodeChild child) :
    topology.shape[child.index]? = some (child.inputs, child.outputs) :=
  h.ports child.index child hchild.inner (h.of_mem hchild.mem) hchild.not_wrapper

theorem wiredGhost (h : Assembled builder edges sorted children topology)
    {wrapper ghost : PerOperatorState O S TInner} (hghost : builder.NodeChild ghost)
    (hwraps : WrapsGhost wrapper ghost) :
    WiredGhost topology wrapper.shared_progress.ports ghost.index := by
  have hports := h.ports_of_node hghost
  exact ⟨⟨_, hwraps.consumeds, fun _ hport => (Builder.has_target_iff hports).mpr hport⟩,
    ⟨_, hwraps.internals, fun _ hport => (Builder.has_source_iff hports).mpr hport⟩,
    ⟨_, hwraps.produceds⟩⟩

/-- A child with a batch for each port of its node. -/
theorem wiredPorts {index inputs outputs : ℕ} {child : Wiring}
    (hports : topology.shape[index]? = some (inputs, outputs)) (hconsumeds : child.ports.consumeds = inputs)
    (hinternals : child.ports.internals = outputs) (hproduceds : child.ports.produceds = outputs)
    (hedges : child.edges.length = outputs) (hghosts : child.ghost_edges.length = outputs) :
    WiredPorts topology index child where
  consumeds _ hport := (Builder.has_target_iff hports).mpr (hport.trans_eq hconsumeds)
  internals _ hport := (Builder.has_source_iff hports).mpr (hport.trans_eq hinternals)
  produceds _ hport := (Builder.has_source_iff hports).mpr (hport.trans_eq hproduceds)
  edges := (hproduceds.trans hedges.symm).le
  ghost_edges := (hproduceds.trans hghosts.symm).le

theorem wiredChild (h : Assembled builder edges sorted children topology) (hwired : builder.WellWired)
    (hghosts : builder.HasGhosts) {layout : Layout} (hlength : layout.children.length = sorted.length)
    (hwrappers : layout.wrapper_ghost = builder.wrapper_ghost) {index : ℕ}
    {child : PerOperatorState O S TInner} (hchild : children[index]? = some child) :
    WiredChild topology layout index child.wiring := by
  have hmem := List.mem_of_getElem? hchild
  obtain ⟨original, horiginal, hkept⟩ := h.exists_original hchild
  have hedges : ∀ targets ∈ child.edges, ∀ target ∈ targets, target.node < layout.children.length := by
    intro targets htargets target htarget
    obtain ⟨edge, hedge, rfl⟩ := h.joined.edges child hmem targets htargets target htarget
    obtain ⟨receiver, hreceiver, hnode⟩ := hwired.targets edge hedge
    rw [hlength, ← hnode]
    exact (List.getElem?_eq_some_iff.mp (h.of_mem hreceiver)).1
  have hghostEdges : ∀ targets ∈ child.ghost_edges, ∀ target ∈ targets,
      topology.has_location (Location.from_target target) = true := by
    intro targets htargets target htarget
    obtain ⟨edge, hedge, rfl⟩ := h.joined.ghost_edges child hmem targets htargets target htarget
    exact h.located edge hedge
  by_cases hindex : index = 0
  · -- the outer scope
    subst hindex
    obtain rfl : PerOperatorState.empty O S TInner builder.output_capabilities.length
        builder.input_messages.length = original := by
      rcases Builder.getElem?_set_cases horiginal with ⟨_, heq⟩ | ⟨hne, _⟩
      · exact heq
      · exact absurd rfl hne
    have houter : ∀ ghosts, layout.wrapper_ghost.lookup 0 ≠ some ghosts := by
      intro ghosts hlookup
      rw [hwrappers] at hlookup
      exact hwired.outer (AList.lookup_isSome.mp (Option.isSome_of_eq_some hlookup))
    refine ⟨hkept.index, hedges, hghostEdges, ?_, fun _ => ?_, ?_, ?_⟩
    · intro port hport
      change port < child.shared_progress.frontiers.length
      rw [hkept.shared]
      exact ((Builder.has_target_iff h.scope).mp hport).trans_eq List.length_replicate.symm
    · refine wiredPorts h.scope ?_ ?_ ?_ (hkept.edges.trans List.length_replicate)
        (hkept.ghost_edges.trans List.length_replicate)
      all_goals
        change List.length _ = _
        rw [hkept.shared]
        exact List.length_replicate
    · exact fun ghosts hlookup => absurd hlookup (houter ghosts)
    · intro hwrapper
      rw [hwrappers] at hwrapper
      exact absurd hwrapper hwired.outer
  · rw [getElem?_with_outer hindex] at horiginal
    have hplace := h.index_eq index original horiginal
    have hbuilt := h.perm.mem_iff.mp (List.mem_of_getElem? horiginal)
    have hfresh := hwired.fresh original hbuilt (by rw [hplace]; exact hindex)
    have hwraps : ∀ ghosts, layout.wrapper_ghost.lookup index = some ghosts → ∀ ghost ∈ ghosts,
        WiredGhost topology child.wiring.ports ghost := by
      intro ghosts hlookup ghost hghost
      rw [hwrappers, ← hplace] at hlookup
      obtain ⟨node, hnode, rfl, hnodeWraps⟩ := hwired.wraps original hbuilt ghosts hlookup ghost hghost
      change WiredGhost topology child.shared_progress.ports node.index
      rw [hkept.shared]
      exact h.wiredGhost hnode hnodeWraps
    refine ⟨hkept.index.trans hplace, hedges, hghostEdges, ?_, ?_, hwraps, ?_⟩
    · intro port hport
      change port < child.shared_progress.frontiers.length
      rw [hkept.shared, hfresh.frontiers]
      by_cases hwrapper : index ∈ builder.wrapper_ghost
      · -- a wrapper has no node, or an empty one
        cases hshape : topology.shape[index]? with
        | none =>
          have hlt := Builder.node_lt_of_has_location hport
          rw [List.getElem?_eq_none_iff] at hshape
          exact absurd hlt (Nat.not_lt_of_le hshape)
        | some ports =>
          have hzero := h.wrappers index ports hindex hwrapper hshape
          have hlt := (Builder.has_target_iff hshape).mp hport
          rw [hzero] at hlt
          exact absurd hlt (Nat.not_lt_zero _)
      · exact (Builder.has_target_iff (h.ports index original hindex horiginal hwrapper)).mp hport
    · intro hwrapper
      rw [hwrappers] at hwrapper
      refine wiredPorts (h.ports index original hindex horiginal hwrapper) ?_ ?_ ?_ ?_ ?_
      · change child.shared_progress.consumeds.length = _
        rw [hkept.shared, hfresh.consumeds]
      · change child.shared_progress.internals.length = _
        rw [hkept.shared, hfresh.internals]
      · change child.shared_progress.produceds.length = _
        rw [hkept.shared, hfresh.produceds]
      · exact hkept.edges.trans (by rw [hfresh.edges, List.length_replicate])
      · exact hkept.ghost_edges.trans (by rw [hfresh.ghost_edges, List.length_replicate])
    · intro hwrapper
      obtain ⟨ghosts, hlookup⟩ := Option.isSome_iff_exists.mp (AList.lookup_isSome.mpr hwrapper)
      obtain ⟨ghost, hghost⟩ := List.exists_mem_of_ne_nil _ (hghosts index ghosts (hwrappers ▸ hlookup))
      obtain ⟨count, hcount, _⟩ := (hwraps ghosts hlookup ghost hghost).internals
      exact ⟨ghost, by rw [hcount]; rfl⟩

/-- The edges of a wrapper's ghosts are edges of the graph. -/
theorem wiredEdges (h : Assembled builder edges sorted children topology) (hghosts : builder.HasGhosts)
    {iteration : IterationOrder ℕ} {table : AList fun _ : ℕ => List (ℕ × ℕ)}
    (hreorganize : builder.reorganize_edges iteration = some (edges, table)) :
    WiredEdges topology builder.wrapper_ghost table := by
  obtain ⟨pushed, extended, hrun, hperm, htable⟩ := exists_reorganize_edges hghosts iteration
  obtain ⟨rfl, rfl⟩ := Prod.mk.inj (Option.some.inj (hreorganize.symm.trans hrun))
  have hconnecting : ∀ wrapper ∈ builder.wrapper_ghost, ∀ edge ∈ builder.connecting wrapper,
      topology.has_location (Location.from_target edge.2) = true := by
    intro wrapper hwrapper edge hedge
    have hmem := List.mem_flatMap.mpr ⟨wrapper, AList.mem_keys.mp hwrapper, hedge⟩
    exact h.located edge (hperm.mem_iff.mpr
      (List.mem_append_right _ (List.mem_append_right _ (List.mem_append_left _ hmem))))
  refine ⟨fun wrapper hwrapper => ?_, fun wrapper hwrapper found hlookup => ?_⟩
  · exact AList.lookup_isSome.mp (Option.isSome_of_eq_some (htable wrapper hwrapper))
  · obtain rfl := Option.some.inj (hlookup.symm.trans (htable wrapper hwrapper))
    intro edge hedge
    rcases List.mem_append.mp hedge with hold | hnew
    · -- an edge between two ghosts of the wrapper
      have hmem : ghost_edge edge ∈ builder.wrapper_ghost.keys.flatMap fun wrapper =>
          ((builder.wrapper_ghost_edges.lookup wrapper).getD []).map ghost_edge :=
        List.mem_flatMap.mpr ⟨wrapper, AList.mem_keys.mp hwrapper, List.mem_map_of_mem hold⟩
      exact h.located (ghost_edge edge) (hperm.mem_iff.mpr
        (List.mem_append_right _ (List.mem_append_right _ (List.mem_append_right _ hmem))))
    · rcases List.mem_cons.mp hnew with rfl | hrest
      · exact hconnecting wrapper hwrapper _ List.mem_cons_self
      · rw [List.mem_singleton.mp hrest]
        exact Builder.has_first_target
          (hconnecting wrapper hwrapper _ (List.mem_cons_of_mem _ List.mem_cons_self))

end Assembled

/-- Where reorganizing goes through every wrapper has a ghost. -/
theorem hasGhosts_of_reorganize {builder : SubgraphBuilder O S TOuter TInner} {iteration : IterationOrder ℕ}
    {reorganized : List (Source × Target) × AList fun _ : ℕ => List (ℕ × ℕ)}
    (h : builder.reorganize_edges iteration = some reorganized) : builder.HasGhosts := by
  rintro wrapper ghosts hlookup rfl
  have hwrapper : wrapper ∈ iteration.order builder.wrapper_ghost.keys :=
    (iteration.perm _).mem_iff.mpr (AList.lookup_isSome.mp (Option.isSome_of_eq_some hlookup))
  obtain ⟨before, after, hvisit⟩ := exists_of_mem_foldlM h wrapper hwrapper
  unfold visit_wrapper at hvisit
  rw [hlookup] at hvisit
  cases hedges : before.2.lookup wrapper with
  | none =>
    rw [hedges] at hvisit
    cases hvisit
  | some edges =>
    rw [hedges] at hvisit
    cases hvisit

/-! ### Built subgraphs -/

section Build

variable [PartialOrder S] [DecidableLE S] [PathSummary S TInner]

/-- What `build` makes of children and a graph that have been assembled. -/
structure BuiltFrom (builder : SubgraphBuilder O S TOuter TInner)
    (children : List (PerOperatorState O S TInner)) (topology : Builder S)
    (table : AList fun _ : ℕ => List (ℕ × ℕ)) (built : Subgraph O S TOuter TInner) : Prop where
  children : built.children = children
  incomplete : built.incomplete.length = built.children.length
  inputs : built.inputs = builder.input_messages.length
  outputs : built.outputs = builder.output_capabilities.length
  input_messages : built.input_messages = builder.input_messages
  output_capabilities : built.output_capabilities = builder.output_capabilities
  shared : built.shared_progress = SharedProgress.new built.inputs built.outputs
  wrapper_ghost : built.wrapper_ghost = builder.wrapper_ghost
  ghost_wrapper : built.ghost_wrapper = builder.ghost_wrapper
  wrapper_ghost_edges : built.wrapper_ghost_edges = table
  allocated : Tracker.Allocated topology built.pointstamp_tracker
  locals : built.local_pointstamp = ChangeBatch.new
  final : built.final_pointstamp = ChangeBatch.new
  active : built.temp_active = []

theorem builtFrom_of_build {builder : SubgraphBuilder O S TOuter TInner} (hwired : builder.WellWired)
    {iteration : IterationOrder ℕ} {eager : Bool} {fuel : ℕ} {built : Subgraph O S TOuter TInner}
    (h : builder.build iteration eager fuel = some built) :
    ∃ edges table sorted children topology, builder.reorganize_edges iteration = some (edges, table) ∧
      Assembled builder edges sorted children topology ∧
      BuiltFrom builder children topology table built := by
  obtain ⟨⟨edges, table⟩, hreorganize, h⟩ := Option.bind_eq_some_iff.mp h
  obtain ⟨⟨children, topology⟩, hassemble, h⟩ := Option.bind_eq_some_iff.mp h
  obtain ⟨⟨tracker, summary⟩, hallocated, h⟩ := Option.bind_eq_some_iff.mp h
  obtain ⟨sorted, hassembled⟩ := assembled_of_assemble hwired hassemble
  split at h
  case isFalse => cases h
  case isTrue =>
    cases h
    refine ⟨edges, table, sorted, children, topology, hreorganize, hassembled, ?_⟩
    exact ⟨rfl, List.length_set.trans (List.length_map _), rfl, rfl, rfl, rfl, rfl, rfl, rfl, rfl,
      ⟨fuel, summary, hallocated⟩, rfl, rfl, rfl⟩

namespace BuiltFrom

variable {builder : SubgraphBuilder O S TOuter TInner} {edges : List (Source × Target)}
  {table : AList fun _ : ℕ => List (ℕ × ℕ)} {sorted children : List (PerOperatorState O S TInner)}
  {topology : Builder S} {built : Subgraph O S TOuter TInner}

theorem layout_child (h : BuiltFrom builder children topology table built) {index : ℕ} {child : Wiring}
    (hchild : built.layout.children[index]? = some child) :
    ∃ found, children[index]? = some found ∧ found.wiring = child := by
  change (built.children.map PerOperatorState.wiring)[index]? = some child at hchild
  rw [h.children, List.getElem?_map] at hchild
  exact Option.map_eq_some_iff.mp hchild

theorem length_layout (h : BuiltFrom builder children topology table built) :
    built.layout.children.length = children.length := by
  change (built.children.map PerOperatorState.wiring).length = _
  rw [List.length_map, h.children]

/-- A wrapper shares as many batches of frontier changes for a ghost as the ghost has inputs. -/
theorem wrapped (h : BuiltFrom builder children topology table built)
    (hassembled : Assembled builder edges sorted children topology) (hwired : builder.WellWired)
    {ghost wrapper : ℕ} (hlookup : builder.ghost_wrapper.lookup ghost = some wrapper) :
    ∃ child : Wiring, built.layout.children[wrapper]? = some child ∧
      ∃ count, child.ports.wrapper_frontiers ghost = some count ∧
        ∀ port, topology.has_location (Location.new_target ghost port) = true → port < count := by
  obtain ⟨⟨original, hmem, rfl⟩, ghosts, hghosts, hghost⟩ := hwired.ghosts ghost wrapper hlookup
  obtain ⟨node, hnode, rfl, hwraps⟩ := hwired.wraps original hmem ghosts hghosts ghost hghost
  have hinner : original.index ≠ 0 := by
    intro hzero
    rw [hzero] at hghosts
    exact hwired.outer (AList.lookup_isSome.mp (Option.isSome_of_eq_some hghosts))
  have hplace := hassembled.of_mem hmem
  have hindex : original.index < children.length := by
    rw [hassembled.length_children]
    exact (List.getElem?_eq_some_iff.mp hplace).1
  have hchild := List.getElem?_eq_getElem hindex
  obtain ⟨made, hmade, hkept⟩ := hassembled.exists_original hchild
  rw [getElem?_with_outer hinner, hplace] at hmade
  obtain rfl := Option.some.inj hmade
  refine ⟨children[original.index].wiring, ?_, node.inputs, ?_, ?_⟩
  · change (built.children.map PerOperatorState.wiring)[original.index]? = _
    rw [h.children, List.getElem?_map, hchild, Option.map_some]
  · change batch_counts children[original.index].shared_progress.wrapper_frontiers node.index = _
    rw [hkept.shared]
    exact hwraps.frontiers
  · exact fun port hport => (Builder.has_target_iff (hassembled.ports_of_node hnode)).mp hport

theorem wired (h : BuiltFrom builder children topology table built)
    (hassembled : Assembled builder edges sorted children topology) (hwired : builder.WellWired)
    {iteration : IterationOrder ℕ} (hreorganize : builder.reorganize_edges iteration = some (edges, table))
    (hseven : 7 ≤ builder.children.length)
    (hlast : builder.children.length - 1 ∉ builder.wrapper_ghost) : Wired topology built.layout := by
  have hghosts := hasGhosts_of_reorganize hreorganize
  have hlength := hassembled.length_children.trans hassembled.perm.length_eq
  have hwrappers : built.layout.wrapper_ghost = builder.wrapper_ghost := h.wrapper_ghost
  have hempty : built.layout.shared_progress = (SharedProgress.new built.inputs built.outputs).ports :=
    congrArg SharedProgress.ports h.shared
  refine ⟨?_, ?_, ?_, ?_, ?_, ?_, ?_, ?_, ?_, ?_, ?_, ?_, ?_, ?_⟩
  · rw [h.length_layout, hlength]
    exact hseven
  · rw [h.length_layout, hassembled.length_children]
    exact hassembled.length_shape (by omega) hlast
  · refine hassembled.scope.trans ?_
    change _ = some (built.outputs, built.inputs)
    rw [h.outputs, h.inputs]
  · rw [h.length_layout, ← h.children]
    exact h.incomplete
  · exact (congrArg List.length h.input_messages).trans h.inputs.symm
  · exact (congrArg List.length h.output_capabilities).trans h.outputs.symm
  · rw [hempty]
    exact List.length_replicate
  · rw [hempty]
    exact List.length_replicate
  · rw [hempty]
    exact List.length_replicate
  · rw [hempty]
    exact List.length_replicate
  · intro child hchild
    obtain ⟨found, hfound, rfl⟩ := h.layout_child hchild
    obtain ⟨outer, houter, hkept⟩ := hassembled.exists_original hfound
    change built.inputs ≤ found.ghost_edges.length
    rcases Builder.getElem?_set_cases houter with ⟨_, rfl⟩ | ⟨hne, _⟩
    · rw [hkept.ghost_edges, h.inputs]
      exact List.length_replicate.ge
    · exact absurd rfl hne
  · intro index child hchild
    obtain ⟨found, hfound, rfl⟩ := h.layout_child hchild
    exact hassembled.wiredChild hwired hghosts
      (h.length_layout.trans hassembled.length_children) hwrappers hfound
  · change WiredEdges topology built.wrapper_ghost built.wrapper_ghost_edges
    rw [h.wrapper_ghost, h.wrapper_ghost_edges]
    exact hassembled.wiredEdges hghosts hreorganize
  · intro ghost wrapper hlookup
    change built.ghost_wrapper.lookup ghost = some wrapper at hlookup
    rw [h.ghost_wrapper] at hlookup
    exact h.wrapped hassembled hwired hlookup

theorem silent (h : BuiltFrom builder children topology table built)
    (hassembled : Assembled builder edges sorted children topology) (hwired : builder.WellWired)
    {index : ℕ} {child : PerOperatorState O S TInner} (hchild : built.children[index]? = some child)
    (hwrapper : index ∈ built.wrapper_ghost) : child.shared_progress.Silent := by
  rw [h.children] at hchild
  rw [h.wrapper_ghost] at hwrapper
  have hinner : index ≠ 0 := fun hzero => hwired.outer (hzero ▸ hwrapper)
  obtain ⟨original, horiginal, hkept⟩ := hassembled.exists_original hchild
  rw [getElem?_with_outer hinner] at horiginal
  rw [hkept.shared]
  refine hwired.silent original (hassembled.perm.mem_iff.mp (List.mem_of_getElem? horiginal)) ?_
  rw [hassembled.index_eq index original horiginal]
  exact hwrapper

end BuiltFrom

/-- All indices of a built subgraph are in range, if there is a child for each of the numbers that
    are printed, and the last child is no wrapper. -/
theorem indexed_of_build {builder : SubgraphBuilder O S TOuter TInner} (hwired : builder.WellWired)
    (hseven : 7 ≤ builder.children.length) (hlast : builder.children.length - 1 ∉ builder.wrapper_ghost)
    {iteration : IterationOrder ℕ} {eager : Bool} {fuel : ℕ} {built : Subgraph O S TOuter TInner}
    (h : builder.build iteration eager fuel = some built) :
    Subgraph.Indexed built.pointstamp_tracker.builder built := by
  obtain ⟨edges, table, sorted, children, topology, hreorganize, hassembled, hbuilt⟩ :=
    builtFrom_of_build hwired h
  have hfresh := hbuilt.allocated.fresh
  have hbuilder := hfresh.builder_eq
  have hready : built.pointstamp_tracker.Ready := by
    refine ⟨hfresh.tracking.quiet.toBalanced, ?_, ?_, ?_, ⟨?_, ?_⟩, ?_⟩
    · rw [hbuilder]
      exact hassembled.exist
    · exact hbuilt.allocated.fits_of_targets hassembled.exist.has_target
    · intro entry hentry
      rw [hfresh.worklist] at hentry
      exact absurd hentry List.not_mem_nil
    · rw [hfresh.targets]
      exact fun _ hchange => absurd hchange List.not_mem_nil
    · rw [hfresh.sources]
      exact fun _ hchange => absurd hchange List.not_mem_nil
    · rw [hfresh.pushed]
      exact ChangeBatch.keysIn_new _
  rw [hbuilder]
  refine ⟨hbuilt.wired hassembled hwired hreorganize hseven hlast, hbuilder, hready, ?_, ?_, ?_, ?_,
    fun _ _ hchild hwrapper => hbuilt.silent hassembled hwired hchild hwrapper⟩
  · obtain ⟨scope_outputs, scope_inputs, hscope, houtputs⟩ := hfresh.outputs
    obtain ⟨rfl, -⟩ := Prod.mk.inj (Option.some.inj (hscope.symm.trans hassembled.scope))
    rw [houtputs, List.length_replicate, hbuilt.outputs]
  · rw [hbuilt.locals]
    exact ChangeBatch.keysIn_new _
  · rw [hbuilt.final]
    exact ChangeBatch.keysIn_new _
  · rw [hbuilt.active]
    exact fun _ hindex => absurd hindex List.not_mem_nil

end Build

end SubgraphBuilder

end Timely
