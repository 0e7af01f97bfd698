/-
  Timely/SubgraphBuilder.lean
  ===========================
  **Building a subgraph** (`timely/src/progress/subgraph.rs`, `SubgraphBuilder`).

  The edges of a scope are stashed while it is under construction.  Before the
  topology goes to the progress tracker, `reorganize_edges` puts the ghost
  operators of each wrapper in the place of the wrapper.  It keeps one source
  and one target for all wrappers together, so it does so correctly for one kind
  of graph only: all wrappers are fed from one source and feed one target.
-/
import Timely.Subgraph
import Mathlib.Data.List.Perm.Basic
import Mathlib.Data.List.Sort

set_option linter.unusedSectionVars false

namespace Timely

open Library

/-- A subgraph under construction.  Registering a wrapper registers its edges, and no output
    has expressed a capability. -/
structure SubgraphBuilder (O S TOuter TInner : Type) [Ord TOuter] [Ord TInner] where
  index : ℕ
  children : List (PerOperatorState O S TInner)
  child_count : ℕ
  edge_stash : List (Source × Target)
  ghost_edge_stash : List (Source × Target)
  input_messages : List (ChangeBatch TInner)
  output_capabilities : List (MutableAntichain TOuter)
  wrapper_ghost : AList fun _ : ℕ => List ℕ
  ghost_wrapper : AList fun _ : ℕ => ℕ
  wrapper_ghost_edges : AList fun _ : ℕ => List (ℕ × ℕ)
  registered : ∀ wrapper ∈ wrapper_ghost, wrapper ∈ wrapper_ghost_edges
  unexpressed : ∀ capabilities ∈ output_capabilities, capabilities = MutableAntichain.new

namespace SubgraphBuilder

variable {O S TOuter TInner : Type}
  [PartialOrder TOuter] [DecidableLE TOuter] [DecidableEq TOuter] [Ord TOuter]
  [LinearExtension TOuter]
  [PartialOrder TInner] [DecidableLE TInner] [DecidableEq TInner] [Ord TInner]
  [LinearExtension TInner] [Refines TOuter TInner]

/-! ### Construction -/

/-- A builder that holds the placeholder for the outer scope only. -/
def new_from (index : ℕ) : SubgraphBuilder O S TOuter TInner where
  index := index
  children := [PerOperatorState.empty O S TInner 0 0]
  child_count := 1
  edge_stash := []
  ghost_edge_stash := []
  input_messages := []
  output_capabilities := []
  wrapper_ghost := ∅
  ghost_wrapper := ∅
  wrapper_ghost_edges := ∅
  registered := fun wrapper hwrapper => absurd hwrapper (AList.notMem_empty wrapper)
  unexpressed := fun _ hmem => absurd hmem List.not_mem_nil

/-- Allocates a new input, with the batch that counts its messages. -/
def new_input (builder : SubgraphBuilder O S TOuter TInner) (shared_counts : ChangeBatch TInner) :
    Target × SubgraphBuilder O S TOuter TInner :=
  (⟨builder.index, builder.input_messages.length⟩,
    { builder with input_messages := builder.input_messages ++ [shared_counts] })

/-- Allocates a new output. -/
def new_output (builder : SubgraphBuilder O S TOuter TInner) :
    Source × SubgraphBuilder O S TOuter TInner :=
  (⟨builder.index, builder.output_capabilities.length⟩,
    { builder with
      output_capabilities := builder.output_capabilities ++ [MutableAntichain.new]
      unexpressed := by
        intro capabilities hmem
        rcases List.mem_append.mp hmem with hold | hnew
        · exact builder.unexpressed capabilities hold
        · exact List.mem_singleton.mp hnew })

/-- Introduces a dependence from the source to the target. -/
def connect (builder : SubgraphBuilder O S TOuter TInner) (source : Source) (target : Target) :
    SubgraphBuilder O S TOuter TInner :=
  { builder with edge_stash := builder.edge_stash ++ [(source, target)] }

/-- Allocates a new child identifier. -/
def allocate_child_id (builder : SubgraphBuilder O S TOuter TInner) :
    ℕ × SubgraphBuilder O S TOuter TInner :=
  (builder.child_count, { builder with child_count := builder.child_count + 1 })

/-- Adds a new child. -/
def add_child (builder : SubgraphBuilder O S TOuter TInner) (child : PerOperatorState O S TInner) :
    SubgraphBuilder O S TOuter TInner :=
  { builder with children := builder.children ++ [{ child with count_for_incomplete := true }] }

/-- Adds a new child that does not count as incomplete. -/
def add_child_no_path (builder : SubgraphBuilder O S TOuter TInner)
    (child : PerOperatorState O S TInner) : SubgraphBuilder O S TOuter TInner :=
  { builder with children := builder.children ++ [{ child with count_for_incomplete := false }] }

/-- Registers the ghost operators that stand for a wrapper. -/
def add_fpga_operator (builder : SubgraphBuilder O S TOuter TInner) (wrapper : ℕ) (ghost : List ℕ)
    (ghost_edges : List (ℕ × ℕ)) : SubgraphBuilder O S TOuter TInner :=
  { builder with
    ghost_wrapper := ghost.foldl (fun kept g => kept.insert g wrapper) builder.ghost_wrapper
    wrapper_ghost := builder.wrapper_ghost.insert wrapper ghost
    wrapper_ghost_edges := builder.wrapper_ghost_edges.insert wrapper ghost_edges
    registered := by
      intro other hother
      rw [AList.mem_insert] at hother ⊢
      exact hother.imp_right (builder.registered other) }

/-! ### Reorganizing the edges -/

/-- The loop over the edges: the last source into a wrapper, the last target out of one, and
    the edges that touch no wrapper. -/
structure Sorted where
  start_source : Source
  end_target : Target
  ghost_edge_stash : List (Source × Target)

/-- Sort one edge. -/
def sort_edge (wrapper_ghost : AList fun _ : ℕ => List ℕ) (state : Sorted)
    (edge : Source × Target) : Sorted :=
  if edge.2.node ∈ wrapper_ghost then { state with start_source := edge.1 }
  else if edge.1.node ∈ wrapper_ghost then { state with end_target := edge.2 }
  else { state with ghost_edge_stash := state.ghost_edge_stash ++ [edge] }

/-- An edge between two ghosts. -/
def ghost_edge (edge : ℕ × ℕ) : Source × Target := (⟨edge.1, 0⟩, ⟨edge.2, 0⟩)

/-- The edges pushed for one wrapper, with its extended table of ghost edges; `none` where it
    has no ghost. -/
def reorganize_wrapper (sorted : Sorted) (ghosts : List ℕ) (edges : List (ℕ × ℕ)) :
    Option (List (Source × Target) × List (ℕ × ℕ)) :=
  match ghosts.head?, ghosts.getLast? with
  | some first, some last =>
    some
      ([(sorted.start_source, ⟨first, 0⟩), (⟨last, 0⟩, sorted.end_target)] ++ edges.map ghost_edge,
        edges ++ [(sorted.start_source.node, first), (last, sorted.end_target.node)])
  | _, _ => none

/-- Visit one wrapper of the hash map. -/
def visit_wrapper (wrapper_ghost : AList fun _ : ℕ => List ℕ) (sorted : Sorted)
    (state : List (Source × Target) × AList fun _ : ℕ => List (ℕ × ℕ)) (wrapper : ℕ) :
    Option (List (Source × Target) × AList fun _ : ℕ => List (ℕ × ℕ)) :=
  match wrapper_ghost.lookup wrapper, state.2.lookup wrapper with
  | some ghosts, some edges =>
    (reorganize_wrapper sorted ghosts edges).map fun pushed =>
      (state.1 ++ pushed.1, state.2.insert wrapper pushed.2)
  | _, _ => none

/-- The edges for the progress tracker, and the extended tables of ghost edges. -/
def reorganize_edges (builder : SubgraphBuilder O S TOuter TInner) (iteration : IterationOrder ℕ) :
    Option (List (Source × Target) × AList fun _ : ℕ => List (ℕ × ℕ)) :=
  let sorted := builder.edge_stash.foldl (sort_edge builder.wrapper_ghost)
    ⟨⟨0, 0⟩, ⟨0, 0⟩, builder.ghost_edge_stash⟩
  (iteration.order builder.wrapper_ghost.keys).foldlM (visit_wrapper builder.wrapper_ghost sorted)
    (sorted.ghost_edge_stash, builder.wrapper_ghost_edges)

/-! ### Building -/

/-- Add the nodes of all executable children to the topology. -/
def add_nodes (builder : SubgraphBuilder O S TOuter TInner)
    (children : List (PerOperatorState O S TInner)) (topology : Builder S) : Option (Builder S) :=
  (children.zipIdx.drop 1).foldlM (fun topology child =>
    if child.2 ∈ builder.wrapper_ghost then some topology
    else topology.add_node child.2 child.1.inputs child.1.outputs child.1.internal_summary) topology

/-- Push the target of an edge at its source; `none` where the port does not exist. -/
def push_target (ports : List (List Target)) (edge : Source × Target) : Option (List (List Target)) :=
  if edge.1.port < ports.length then
    some (ports.modify edge.1.port fun targets => targets ++ [edge.2])
  else none

def push_edge (children : List (PerOperatorState O S TInner)) (edge : Source × Target) :
    Option (List (PerOperatorState O S TInner)) :=
  match children[edge.1.node]? with
  | none => none
  | some child =>
    (push_target child.edges edge).map fun edges =>
      children.set edge.1.node { child with edges := edges }

def push_ghost_edge (state : List (PerOperatorState O S TInner) × Builder S) (edge : Source × Target) :
    Option (List (PerOperatorState O S TInner) × Builder S) :=
  match state.1[edge.1.node]? with
  | none => none
  | some child =>
    (push_target child.ghost_edges edge).bind fun ghost_edges =>
      (state.2.add_edge edge.1 edge.2).map fun topology =>
        (state.1.set edge.1.node { child with ghost_edges := ghost_edges }, topology)

/-- The children and the topology that go into the subgraph. -/
def assemble (builder : SubgraphBuilder O S TOuter TInner) (edges : List (Source × Target)) :
    Option (List (PerOperatorState O S TInner) × Builder S) :=
  let inputs := builder.input_messages.length
  let outputs := builder.output_capabilities.length
  let sorted := builder.children.insertionSort fun first second => first.index ≤ second.index
  if sorted.map PerOperatorState.index = List.range sorted.length then
    let children := sorted.set 0 (PerOperatorState.empty O S TInner outputs inputs)
    (((Builder.new.add_node 0 outputs inputs
      (List.replicate outputs (List.replicate inputs Antichain.new))).bind
      (builder.add_nodes children)).bind fun topology =>
      (builder.edge_stash.foldlM push_edge children).bind fun children =>
        edges.foldlM push_ghost_edge (children, topology))
  else none

/-- Build the subgraph.  The number of incomplete children is taken to be four less than the
    number of children. -/
def build [PartialOrder S] [DecidableLE S] [PathSummary S TInner]
    (builder : SubgraphBuilder O S TOuter TInner) (iteration : IterationOrder ℕ)
    (eager_progress_send : Bool) (fuel : ℕ) : Option (Subgraph O S TOuter TInner) :=
  (builder.reorganize_edges iteration).bind fun reorganized =>
    (builder.assemble reorganized.1).bind fun assembled =>
      (Tracker.allocate_from (T := TInner) assembled.2 fuel).bind fun allocated =>
        if 4 ≤ assembled.1.length then
          some
            { inputs := builder.input_messages.length
              outputs := builder.output_capabilities.length
              children := assembled.1
              incomplete := (assembled.1.map PerOperatorState.count_for_incomplete).set 0 false
              incomplete_count := assembled.1.length - 4
              temp_active := []
              input_messages := builder.input_messages
              output_capabilities := builder.output_capabilities
              local_pointstamp := ChangeBatch.new
              final_pointstamp := ChangeBatch.new
              pointstamp_tracker := allocated.1
              shared_progress := SharedProgress.new builder.input_messages.length
                builder.output_capabilities.length
              wrapper_ghost := builder.wrapper_ghost
              ghost_wrapper := builder.ghost_wrapper
              wrapper_ghost_edges := reorganized.2
              eager_progress_send := eager_progress_send }
        else none

/-- What `assemble` goes through: it sorts the children, adds their nodes, and connects them. -/
theorem assemble_cases {builder : SubgraphBuilder O S TOuter TInner} {edges : List (Source × Target)}
    {children : List (PerOperatorState O S TInner)} {topology : Builder S}
    (h : builder.assemble edges = some (children, topology)) :
    ∃ (sorted : List (PerOperatorState O S TInner)) (start nodes : Builder S)
      (connected : List (PerOperatorState O S TInner)), sorted.Perm builder.children ∧
      sorted.map PerOperatorState.index = List.range sorted.length ∧
      Builder.new.add_node 0 builder.output_capabilities.length builder.input_messages.length
        (List.replicate builder.output_capabilities.length
          (List.replicate builder.input_messages.length Antichain.new)) = some start ∧
      builder.add_nodes (sorted.set 0 (PerOperatorState.empty O S TInner
        builder.output_capabilities.length builder.input_messages.length)) start = some nodes ∧
      builder.edge_stash.foldlM push_edge (sorted.set 0 (PerOperatorState.empty O S TInner
        builder.output_capabilities.length builder.input_messages.length)) = some connected ∧
      edges.foldlM push_ghost_edge (connected, nodes) = some (children, topology) := by
  simp only [assemble] at h
  split at h
  case isFalse => cases h
  case isTrue hindices =>
    obtain ⟨nodes, hnodes, h⟩ := Option.bind_eq_some_iff.mp h
    obtain ⟨start, hstart, hnodes⟩ := Option.bind_eq_some_iff.mp hnodes
    obtain ⟨connected, hconnected, h⟩ := Option.bind_eq_some_iff.mp h
    exact ⟨_, start, nodes, connected, List.perm_insertionSort _ _, hindices, hstart, hnodes, hconnected, h⟩

/-- What a subgraph that has just been built holds. -/
structure Built [PartialOrder S] [DecidableLE S] [PathSummary S TInner] (topology : Builder S)
    (subgraph : Subgraph O S TOuter TInner) : Prop where
  allocated : Tracker.Allocated topology subgraph.pointstamp_tracker
  capabilities : ∀ capabilities ∈ subgraph.output_capabilities, capabilities = MutableAntichain.new
  length : subgraph.output_capabilities.length = subgraph.outputs
  shared : subgraph.shared_progress = SharedProgress.new subgraph.inputs subgraph.outputs
  locals : subgraph.local_pointstamp = ChangeBatch.new
  final : subgraph.final_pointstamp = ChangeBatch.new

theorem built_of_build [PartialOrder S] [DecidableLE S] [PathSummary S TInner]
    {builder : SubgraphBuilder O S TOuter TInner} {iteration : IterationOrder ℕ} {eager : Bool}
    {fuel : ℕ} {subgraph : Subgraph O S TOuter TInner}
    (h : builder.build iteration eager fuel = some subgraph) :
    ∃ topology, Built topology subgraph := by
  obtain ⟨reorganized, _, h⟩ := Option.bind_eq_some_iff.mp h
  obtain ⟨assembled, _, h⟩ := Option.bind_eq_some_iff.mp h
  obtain ⟨⟨tracker, summary⟩, hallocated, h⟩ := Option.bind_eq_some_iff.mp h
  split at h
  · cases h
    exact ⟨assembled.2, ⟨fuel, summary, hallocated⟩, builder.unexpressed, rfl, rfl, rfl, rfl⟩
  · cases h

theorem ports_of_build [PartialOrder S] [DecidableLE S] [PathSummary S TInner]
    {builder : SubgraphBuilder O S TOuter TInner} {iteration : IterationOrder ℕ} {eager : Bool}
    {fuel : ℕ} {subgraph : Subgraph O S TOuter TInner}
    (h : builder.build iteration eager fuel = some subgraph) :
    subgraph.inputs = builder.input_messages.length ∧
      subgraph.outputs = builder.output_capabilities.length := by
  obtain ⟨reorganized, _, h⟩ := Option.bind_eq_some_iff.mp h
  obtain ⟨assembled, _, h⟩ := Option.bind_eq_some_iff.mp h
  obtain ⟨⟨tracker, summary⟩, _, h⟩ := Option.bind_eq_some_iff.mp h
  split at h
  · cases h
    exact ⟨rfl, rfl⟩
  · cases h

end SubgraphBuilder

end Timely
