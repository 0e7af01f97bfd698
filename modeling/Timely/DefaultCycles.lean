/-
  Timely/DefaultCycles.lean
  =========================
  **`is_acyclic` decides whether default summaries form a cycle.**

  For a graph whose edges lead to existing ports the test always answers: every
  count it lowers is there and positive.  Its answer is the absence of a cycle of
  edges and default internal summaries, whatever order the hash map is visited in.
-/
import Timely.Acyclic
import Timely.Library.Cycles

set_option linter.unusedSectionVars false

namespace Timely

open Library

namespace Builder

variable {S : Type}

variable [Inhabited S]

/-- What leaves a timestamp as it is: an edge, or an internal connection that has the default
    summary in its antichain. -/
inductive Unchanging (builder : Builder S) : Location → Location → Prop
  | edge {node port : ℕ} {targets : List Target} {target : Target} :
      builder.targets_of node port = some targets → target ∈ targets →
      Unchanging builder (Location.new_source node port) (Location.from_target target)
  | summary {node input output : ℕ} {outputs : List (Antichain S)} {antichain : Antichain S} :
      builder.summaries_of node input = some outputs → outputs[output]? = some antichain →
      default ∈ antichain.elements →
      Unchanging builder (Location.new_target node input) (Location.new_source node output)

variable [DecidableEq S]

/-- The successors that the test visits are these arcs. -/
theorem succeeds_iff {builder : Builder S} {first second : Location} :
    Succeeds builder.default_successors first second ↔ builder.Unchanging first second := by
  constructor
  · rintro ⟨successors, hsuccessors, hsecond⟩
    obtain ⟨node, port⟩ := first
    cases port with
    | source port =>
      obtain ⟨targets, htargets, rfl⟩ := Option.map_eq_some_iff.mp hsuccessors
      obtain ⟨target, htarget, rfl⟩ := List.mem_map.mp hsecond
      exact Unchanging.edge htargets htarget
    | target port =>
      obtain ⟨outputs, houtputs, rfl⟩ := Option.map_eq_some_iff.mp hsuccessors
      obtain ⟨⟨antichain, output⟩, hentry, hdefault⟩ := List.mem_flatMap.mp hsecond
      obtain ⟨summary, hsummary, rfl⟩ := List.mem_map.mp hdefault
      obtain ⟨hmem, heq⟩ := List.mem_filter.mp hsummary
      rw [decide_eq_true_eq] at heq
      subst heq
      exact Unchanging.summary houtputs (List.mem_zipIdx_iff_getElem?.mp hentry) hmem
  · intro h
    cases h with
    | edge htargets htarget => exact defaultArc_edge htargets htarget
    | @summary node input output outputs antichain houtputs hantichain hdefault =>
      refine ⟨_, by simp [default_successors, Location.new_target, houtputs]; rfl, ?_⟩
      rw [List.mem_flatMap]
      refine ⟨(antichain, output), List.mem_zipIdx_iff_getElem?.mpr hantichain, ?_⟩
      rw [List.mem_replicate]
      have hdefaults : default ∈ default_summaries antichain :=
        List.mem_filter.mpr ⟨hdefault, by simp⟩
      exact ⟨(List.length_pos_of_mem hdefaults).ne', rfl⟩

/-- Both ends of an arc exist. -/
theorem EdgesExist.mem_locations {builder : Builder S} (h : builder.EdgesExist)
    {first second : Location} (harc : Succeeds builder.default_successors first second) :
    second ∈ builder.locations := by
  rw [mem_locations_iff]
  rcases succeeds_iff.mp harc with ⟨htargets, htarget⟩ | ⟨houtputs, hantichain, _⟩
  · exact h.has_target htargets htarget
  · exact builder.has_source_of_summary houtputs hantichain

/-- The test returns, and its answer is whether there is no cycle of edges and default
    internal summaries. -/
theorem is_acyclic_decides {builder : Builder S} (hedges : builder.EdgesExist)
    (iteration : IterationOrder Location) :
    ∃ answer, builder.is_acyclic iteration = some answer ∧
      (answer = true ↔ ∀ location, ¬ Relation.TransGen builder.Unchanging location location) := by
  have hstack : (iteration.order (Degrees.load
      (observe builder.default_successors builder.locations)).zeros).reverse.Perm
      (Degrees.load (observe builder.default_successors builder.locations)).zeros :=
    (List.reverse_perm _).trans (iteration.perm _)
  obtain ⟨degrees, hrun, hdecides⟩ := eliminate_decides builder.nodup_locations
    builder.mem_locations hedges.mem_locations hstack
  have hsame : Succeeds builder.default_successors = builder.Unchanging := by
    funext first second
    exact propext succeeds_iff
  rw [hsame] at hdecides
  refine ⟨degrees.keys.isEmpty, ?_, hdecides⟩
  unfold is_acyclic in_degree
  rw [observations_eq]
  exact Option.map_eq_some_iff.mpr ⟨degrees, hrun, rfl⟩

/-- A loop of default summaries, as a feedback without increment makes it. -/
def looping_graph : Option (Builder (Unsigned 64)) := do
  let builder ← Builder.new.add_node 0 1 1 [[Antichain.from_elem 0]]
  builder.add_edge ⟨0, 0⟩ ⟨0, 0⟩

def looping_builder : Builder (Unsigned 64) := looping_graph.get (by decide)

theorem is_acyclic_decides_example :
    ∃ location, Relation.TransGen looping_builder.Unchanging location location := by
  have hedges : looping_builder.EdgesExist := by decide
  have hanswer : looping_builder.is_acyclic IterationOrder.listed = some false := by decide
  obtain ⟨answer, hsome, hiff⟩ := is_acyclic_decides hedges IterationOrder.listed
  rw [hanswer, Option.some.injEq] at hsome
  by_contra hnone
  push Not at hnone
  rw [← hsome] at hiff
  exact absurd (hiff.mpr hnone) Bool.false_ne_true

end Builder

end Timely
