/-
  Timely/Builder.lean
  ===================
  **The topology builder** (`timely/src/progress/reachability.rs`, `Builder`).

  A `Builder` holds, for each node, the path summaries from its inputs to its
  outputs and the targets of its outputs.  The shape assertions of `add_node`
  and `add_edge` are fields of the structure.  They leave one thing open: a node
  may be overwritten with fewer inputs after an edge to it was added, so an edge
  may refer to a target that does not exist.  `is_acyclic` indexes every
  location it removes, hence a graph it accepts has no such edge.

  The module also fixes what the graph means: `Arc` is one step of a timestamp
  through an edge or an internal summary, and `Path` a sequence of steps.
-/
import Timely.Frontier
import Timely.Location
import Timely.Timestamp
import Timely.Library.Elimination
import Mathlib.Data.List.ProdSigma

set_option linter.unusedSectionVars false

namespace Timely

open Library

/-! ### The builder -/

/-- A topology builder: internal connections, direct connections, and the numbers of
    inputs and outputs of each node. -/
structure Builder (S : Type) where
  nodes : List (List (List (Antichain S)))
  edges : List (List (List Target))
  shape : List (ℕ × ℕ)
  nodes_length : nodes.length = shape.length
  edges_length : edges.length = shape.length
  nodes_shape : ∀ (index : ℕ) (summary : List (List (Antichain S))) (ports : ℕ × ℕ),
    nodes[index]? = some summary → shape[index]? = some ports →
    summary.length = ports.1 ∧ ∀ outputs ∈ summary, outputs.length = ports.2
  edges_shape : ∀ (index : ℕ) (outputs : List (List Target)) (ports : ℕ × ℕ),
    edges[index]? = some outputs → shape[index]? = some ports → outputs.length = ports.2

namespace Builder

variable {S : Type}

/-- Create a new empty topology builder. -/
def new : Builder S := ⟨[], [], [], rfl, rfl, by simp, by simp⟩

/-- The targets of an output port, if the port exists. -/
def targets_of (builder : Builder S) (node port : ℕ) : Option (List Target) :=
  builder.edges[node]?.bind fun outputs => outputs[port]?

/-- The summaries from an input port to each output port, if the port exists. -/
def summaries_of (builder : Builder S) (node port : ℕ) : Option (List (Antichain S)) :=
  builder.nodes[node]?.bind fun inputs => inputs[port]?

/-- The port that a location names exists. -/
def has_location (builder : Builder S) (location : Location) : Bool :=
  match builder.shape[location.node]? with
  | none => false
  | some (inputs, outputs) =>
    match location.port with
    | .target port => port < inputs
    | .source port => port < outputs

/-- The port that a pointstamp is at exists. -/
def HasKey {T : Type} (builder : Builder S) (key : Location × T) : Prop :=
  builder.has_location key.1 = true

/-! ### Building a graph -/

theorem getElem?_set_cases {α : Type} {list : List α} {index other : ℕ} {value found : α}
    (h : (list.set index value)[other]? = some found) :
    (index = other ∧ value = found) ∨ (index ≠ other ∧ list[other]? = some found) := by
  rw [List.getElem?_set] at h
  by_cases heq : index = other
  · rw [if_pos heq] at h
    split at h
    · exact Or.inl ⟨heq, Option.some.inj h⟩
    · cases h
  · rw [if_neg heq] at h
    exact Or.inr ⟨heq, h⟩

/-- Extend every table with empty nodes until `index` is among them. -/
def pad (builder : Builder S) (index : ℕ) : Builder S where
  nodes := builder.nodes ++ List.replicate (index + 1 - builder.shape.length) []
  edges := builder.edges ++ List.replicate (index + 1 - builder.shape.length) []
  shape := builder.shape ++ List.replicate (index + 1 - builder.shape.length) (0, 0)
  nodes_length := by simp [builder.nodes_length]
  edges_length := by simp [builder.edges_length]
  nodes_shape node summary ports hnode hshape := by
    by_cases hold : node < builder.shape.length
    · rw [List.getElem?_append_left (by rwa [builder.nodes_length])] at hnode
      rw [List.getElem?_append_left hold] at hshape
      exact builder.nodes_shape node summary ports hnode hshape
    · rw [List.getElem?_append_right (by rw [builder.nodes_length]; omega)] at hnode
      rw [List.getElem?_append_right (by omega)] at hshape
      rw [(List.mem_replicate.mp (List.mem_of_getElem? hnode)).2,
        (List.mem_replicate.mp (List.mem_of_getElem? hshape)).2]
      simp
  edges_shape node outputs ports hnode hshape := by
    by_cases hold : node < builder.shape.length
    · rw [List.getElem?_append_left (by rwa [builder.edges_length])] at hnode
      rw [List.getElem?_append_left hold] at hshape
      exact builder.edges_shape node outputs ports hnode hshape
    · rw [List.getElem?_append_right (by rw [builder.edges_length]; omega)] at hnode
      rw [List.getElem?_append_right (by omega)] at hshape
      rw [(List.mem_replicate.mp (List.mem_of_getElem? hnode)).2,
        (List.mem_replicate.mp (List.mem_of_getElem? hshape)).2]
      rfl

/-- Add links internal to operators; the shape of `summary` is asserted.  The edges of the
    node are kept when their number is the number of outputs. -/
def add_node (builder : Builder S) (index inputs outputs : ℕ)
    (summary : List (List (Antichain S))) : Option (Builder S) :=
  if hsummary : summary.length = inputs ∧ ∀ ports ∈ summary, ports.length = outputs then
    let padded := builder.pad index
    let kept := (padded.edges[index]?).getD []
    let ports := if kept.length = outputs then kept else List.replicate outputs []
    some
      { nodes := padded.nodes.set index summary
        edges := padded.edges.set index ports
        shape := padded.shape.set index (inputs, outputs)
        nodes_length := by simp [padded.nodes_length]
        edges_length := by simp [padded.edges_length]
        nodes_shape := by
          intro node other numbers hnode hshape
          rcases getElem?_set_cases hnode with ⟨rfl, rfl⟩ | ⟨hne, hold⟩
          · rcases getElem?_set_cases hshape with ⟨-, rfl⟩ | ⟨hne, -⟩
            · exact hsummary
            · exact absurd rfl hne
          · rcases getElem?_set_cases hshape with ⟨heq, -⟩ | ⟨-, hshape⟩
            · exact absurd heq hne
            · exact padded.nodes_shape node other numbers hold hshape
        edges_shape := by
          have hports : ports.length = outputs := by
            simp only [ports]
            split
            case isTrue h => exact h
            case isFalse => simp
          intro node other numbers hnode hshape
          rcases getElem?_set_cases hnode with ⟨rfl, rfl⟩ | ⟨hne, hold⟩
          · rcases getElem?_set_cases hshape with ⟨-, rfl⟩ | ⟨hne, -⟩
            · exact hports
            · exact absurd rfl hne
          · rcases getElem?_set_cases hshape with ⟨heq, -⟩ | ⟨-, hshape⟩
            · exact absurd heq hne
            · exact padded.edges_shape node other numbers hold hshape }
  else none

/-- Add links between operators; both ports are asserted to exist. -/
def add_edge (builder : Builder S) (source : Source) (target : Target) : Option (Builder S) :=
  if builder.has_location (Location.from_source source) &&
      builder.has_location (Location.from_target target) then
    some
      { builder with
        edges := builder.edges.modify source.node fun outputs =>
          outputs.modify source.port fun targets => targets ++ [target]
        edges_length := by simp [builder.edges_length]
        edges_shape := by
          intro node outputs ports hnode hshape
          rw [List.getElem?_modify] at hnode
          cases hold : builder.edges[node]? with
          | none => simp [hold] at hnode
          | some old =>
            have hlength := builder.edges_shape node old ports hold hshape
            rw [hold] at hnode
            by_cases heq : source.node = node
            · simp only [heq, if_true, Option.map_some, Option.some.injEq, Option.map_eq_map] at hnode
              rw [← hnode, List.length_modify]
              exact hlength
            · simp only [heq, if_false, Option.map_some, Option.some.injEq, Option.map_eq_map] at hnode
              rw [← hnode]
              exact hlength }
  else none

/-! ### Steps and paths of a timestamp -/

section Paths

variable {T : Type} [PathSummary S T]

/-- The times and locations that follow from a time at a location: through each edge of a
    source, or through each internal summary of a target that is defined on the time. -/
def implied (builder : Builder S) (location : Location) (time : T) : List (T × Location) :=
  match location.port with
  | .target port =>
    ((builder.summaries_of location.node port).getD []).zipIdx.flatMap fun entry =>
      entry.1.elements.filterMap fun summary =>
        (PathSummary.results_in summary time).map fun result =>
          (result, Location.new_source location.node entry.2)
  | .source port =>
    ((builder.targets_of location.node port).getD []).map fun target =>
      (time, Location.from_target target)

/-- One step of a timestamp, along an edge or across an operator. -/
inductive Arc (builder : Builder S) : Location → T → Location → T → Prop
  | edge {node port : ℕ} {targets : List Target} {target : Target} (time : T) :
      builder.targets_of node port = some targets → target ∈ targets →
      Arc builder (Location.new_source node port) time (Location.from_target target) time
  | summary {node input output : ℕ} {outputs : List (Antichain S)} {antichain : Antichain S}
      {summary : S} {time result : T} :
      builder.summaries_of node input = some outputs → outputs[output]? = some antichain →
      summary ∈ antichain.elements → PathSummary.results_in summary time = some result →
      Arc builder (Location.new_target node input) time (Location.new_source node output) result

/-- The summary of a connection across an operator. -/
def HasSummary (builder : Builder S) (summary : S) : Prop :=
  ∃ (node input output : ℕ) (outputs : List (Antichain S)) (antichain : Antichain S),
    builder.summaries_of node input = some outputs ∧ outputs[output]? = some antichain ∧
      summary ∈ antichain.elements

/-- The sequential application of the summaries and edges along a path, the empty path
    included, takes `time` at the first location to `result` at the last. -/
inductive Path (builder : Builder S) (location : Location) (time : T) :
    Location → T → Prop
  | nil : Path builder location time location time
  | snoc {middle last : Location} {between result : T} :
      Path builder location time middle between → Arc builder middle between last result →
      Path builder location time last result

theorem mem_implied {builder : Builder S} {location last : Location} {time result : T} :
    (result, last) ∈ builder.implied location time ↔ Arc builder location time last result := by
  constructor
  · intro hmem
    obtain ⟨node, port⟩ := location
    cases port with
    | target port =>
      simp only [implied, List.mem_flatMap, List.mem_filterMap, Option.map_eq_some_iff,
        Prod.mk.injEq] at hmem
      obtain ⟨entry, hentry, summary, hsummary, value, hvalue, rfl, rfl⟩ := hmem
      obtain ⟨antichain, output⟩ := entry
      rw [List.mem_zipIdx_iff_getElem?] at hentry
      cases houtputs : builder.summaries_of node port with
      | none => simp [houtputs] at hentry
      | some outputs =>
        rw [houtputs] at hentry
        exact Arc.summary houtputs hentry hsummary hvalue
    | source port =>
      simp only [implied, List.mem_map, Prod.mk.injEq] at hmem
      obtain ⟨target, htarget, rfl, rfl⟩ := hmem
      cases htargets : builder.targets_of node port with
      | none => simp [htargets] at htarget
      | some targets =>
        rw [htargets] at htarget
        exact Arc.edge _ htargets htarget
  · intro harc
    cases harc with
    | edge time htargets htarget =>
      simp only [implied, Location.new_source, htargets, Option.getD_some, List.mem_map]
      exact ⟨_, htarget, rfl⟩
    | summary houtputs hantichain hsummary hvalue =>
      simp only [implied, Location.new_target, houtputs, Option.getD_some, List.mem_flatMap,
        List.mem_filterMap]
      refine ⟨(_, _), List.mem_zipIdx_iff_getElem?.mpr hantichain, _, hsummary, ?_⟩
      rw [hvalue]
      rfl

theorem Path.trans {builder : Builder S} {first middle last : Location} {time between result : T}
    (h : Path builder first time middle between) (h' : Path builder middle between last result) :
    Path builder first time last result := by
  induction h' with
  | nil => exact h
  | snoc _ harc ih => exact ih.snoc harc

end Paths

/-! ### Existing ports -/

theorem targets_of_isSome (builder : Builder S) (node port : ℕ) :
    (builder.targets_of node port).isSome ↔
      builder.has_location (Location.new_source node port) = true := by
  unfold targets_of has_location Location.new_source
  cases hshape : builder.shape[node]? with
  | none =>
    have hedges : builder.edges[node]? = none := by
      rw [List.getElem?_eq_none_iff] at hshape ⊢
      rwa [builder.edges_length]
    simp [hedges]
  | some ports =>
    cases hedges : builder.edges[node]? with
    | none =>
      rw [List.getElem?_eq_none_iff, builder.edges_length, ← List.getElem?_eq_none_iff] at hedges
      rw [hedges] at hshape
      cases hshape
    | some outputs =>
      simp [← builder.edges_shape node outputs ports hedges hshape]

theorem summaries_of_isSome (builder : Builder S) (node port : ℕ) :
    (builder.summaries_of node port).isSome ↔
      builder.has_location (Location.new_target node port) = true := by
  unfold summaries_of has_location Location.new_target
  cases hshape : builder.shape[node]? with
  | none =>
    have hnodes : builder.nodes[node]? = none := by
      rw [List.getElem?_eq_none_iff] at hshape ⊢
      rwa [builder.nodes_length]
    simp [hnodes]
  | some ports =>
    cases hnodes : builder.nodes[node]? with
    | none =>
      rw [List.getElem?_eq_none_iff, builder.nodes_length, ← List.getElem?_eq_none_iff] at hnodes
      rw [hnodes] at hshape
      cases hshape
    | some inputs =>
      simp [← (builder.nodes_shape node inputs ports hnodes hshape).1]

/-- Every edge leads to an existing port.  That it starts at one is part of the builder. -/
def EdgesExist (builder : Builder S) : Prop :=
  ∀ outputs ∈ builder.edges, ∀ targets ∈ outputs, ∀ target ∈ targets,
    builder.has_location (Location.from_target target) = true

instance (builder : Builder S) : Decidable builder.EdgesExist := by
  unfold EdgesExist
  infer_instance

theorem EdgesExist.has_target {builder : Builder S} (h : builder.EdgesExist) {node port : ℕ}
    {targets : List Target} {target : Target} (htargets : builder.targets_of node port = some targets)
    (htarget : target ∈ targets) : builder.has_location (Location.from_target target) = true := by
  obtain ⟨outputs, houtputs, hport⟩ := Option.bind_eq_some_iff.mp htargets
  exact h outputs (List.mem_of_getElem? houtputs) targets (List.mem_of_getElem? hport) target htarget

end Builder

end Timely
