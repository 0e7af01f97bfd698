/-
  Timely/Summaries.lean
  =====================
  **Path summaries to the scope outputs**
  (`timely/src/progress/reachability.rs`, `summarize_outputs`).

  A walk backwards from the scope outputs that keeps, for each location and
  output, an antichain of summaries.  The reverse edge map holds one source for
  each target, the last one recorded.
-/
import Timely.Builder
import Mathlib.Data.List.AList

namespace Timely

open Library

/-- The summaries from each location to each scope output; a location without an entry has
    no path to any. -/
abbrev OutputSummaries (S : Type) := AList fun _ : Location => List (Antichain S)

namespace Builder

variable {S : Type}

/-- A reverse edge map, to walk back up the dataflow graph. -/
def reverse_edges (builder : Builder S) : AList fun _ : Location => Location :=
  builder.edges.zipIdx.foldl (fun reverse outputs =>
    outputs.1.zipIdx.foldl (fun reverse targets =>
      targets.1.foldl (fun reverse target =>
        reverse.insert (Location.from_target target) (Location.new_source outputs.2 targets.2))
        reverse) reverse) ∅

/-- The edge targets that are scope outputs. -/
def output_targets (builder : Builder S) : List Target :=
  builder.edges.flatten.flatten.filter fun target => target.node = 0

variable {T : Type} [PartialOrder S] [DecidableLE S] [PathSummary S T]

/-- The antichains of a location, with enough of them to hold `output`. -/
def antichains_at (results : OutputSummaries S) (location : Location) (output : ℕ) :
    List (Antichain S) :=
  let antichains := (results.lookup location).getD []
  antichains ++ List.replicate (output + 1 - antichains.length) Antichain.new

/-- Record a summary from a location to an output, and schedule the location if the summary
    is novel. -/
def record_summary (location : Location) (output : ℕ) (summary : S)
    (state : OutputSummaries S × List (Location × ℕ × S)) :
    OutputSummaries S × List (Location × ℕ × S) :=
  let antichains := antichains_at state.1 location output
  let inserted := (antichains[output]?.getD Antichain.new).insert summary
  (state.1.insert location (antichains.set output inserted.2),
    if inserted.1 then state.2 ++ [(location, output, summary)] else state.2)

/-- Crawl up an operator from one of its outputs, to its inputs. -/
def crawl_operator (node output_port output : ℕ) (summary : S) :
    List (List (Antichain S) × ℕ) → OutputSummaries S × List (Location × ℕ × S) →
      Option (OutputSummaries S × List (Location × ℕ × S))
  | [], state => some state
  | (summaries, input_port) :: rest, state =>
    match summaries[output_port]? with
    | none => none
    | some antichain =>
      let location := Location.new_target node input_port
      let entered := (state.1.insert location (antichains_at state.1 location output), state.2)
      crawl_operator node output_port output summary rest
        (antichain.elements.foldl (fun state operator_summary =>
          match PathSummary.followed_by operator_summary summary with
          | none => state
          | some combined => record_summary location output combined state) entered)

/-- One entry of the worklist: crawl up an operator, or walk back the edge to an input. -/
def summarize_step (builder : Builder S) (entry : Location × ℕ × S)
    (state : OutputSummaries S × List (Location × ℕ × S)) :
    Option (OutputSummaries S × List (Location × ℕ × S)) :=
  match entry with
  | (location, output, summary) =>
    match location.port with
    | .source output_port =>
      match builder.nodes[location.node]? with
      | none => none
      | some inputs => crawl_operator location.node output_port output summary inputs.zipIdx state
    | .target _ =>
      match builder.reverse_edges.lookup location with
      | none => some state
      | some source => some (record_summary source output summary state)

/-- Loop until no novel reachability path is discovered. -/
def summarize_loop (builder : Builder S) :
    ℕ → OutputSummaries S × List (Location × ℕ × S) → Option (OutputSummaries S)
  | _, (results, []) => some results
  | 0, (_, _ :: _) => none
  | fuel + 1, (results, entry :: worklist) =>
    match builder.summarize_step entry (results, worklist) with
    | none => none
    | some state => summarize_loop builder fuel state

/-- Determines summaries from locations to scope outputs. -/
def summarize_outputs (builder : Builder S) (fuel : ℕ) : Option (OutputSummaries S) :=
  builder.summarize_loop fuel
    (∅, builder.output_targets.map fun target =>
      (Location.from_target target, target.port, default))

/-! ### Every summary leads to an output that some edge names -/

/-- No list of antichains is longer than `outputs`, and no pending entry names more. -/
def WithinOutputs (outputs : ℕ) (state : OutputSummaries S × List (Location × ℕ × S)) : Prop :=
  (∀ location antichains, state.1.lookup location = some antichains →
    antichains.length ≤ outputs) ∧
  ∀ entry ∈ state.2, entry.2.1 < outputs

variable {outputs output : ℕ} {state : OutputSummaries S × List (Location × ℕ × S)}

omit [PartialOrder S] [DecidableLE S] in
theorem WithinOutputs.length_antichains_at (h : WithinOutputs outputs state)
    (location : Location) (houtput : output < outputs) :
    (antichains_at state.1 location output).length ≤ outputs := by
  have hlength : ((state.1.lookup location).getD []).length ≤ outputs := by
    cases hlookup : state.1.lookup location with
    | none => simp
    | some antichains => exact h.1 location antichains hlookup
  unfold antichains_at
  rw [List.length_append, List.length_replicate]
  omega

omit [PartialOrder S] [DecidableLE S] in
theorem WithinOutputs.insert (h : WithinOutputs outputs state) (location : Location)
    {antichains : List (Antichain S)} (hlength : antichains.length ≤ outputs) :
    WithinOutputs outputs (state.1.insert location antichains, state.2) := by
  refine ⟨?_, h.2⟩
  intro other found hfound
  by_cases heq : other = location
  · subst heq
    rw [AList.lookup_insert, Option.some.injEq] at hfound
    rwa [← hfound]
  · rw [AList.lookup_insert_ne heq] at hfound
    exact h.1 other found hfound

theorem WithinOutputs.record_summary (h : WithinOutputs outputs state) (location : Location)
    (houtput : output < outputs) (summary : S) :
    WithinOutputs outputs (Builder.record_summary location output summary state) := by
  unfold Builder.record_summary
  have hlength := h.length_antichains_at location houtput
  refine ⟨(h.insert location (by rwa [List.length_set])).1, ?_⟩
  intro entry hentry
  dsimp only at hentry
  split at hentry
  case isTrue =>
    rcases List.mem_append.mp hentry with hmem | hmem
    · exact h.2 entry hmem
    · rw [List.mem_singleton] at hmem
      rw [hmem]
      exact houtput
  case isFalse => exact h.2 entry hentry

theorem WithinOutputs.crawl_operator {node output_port : ℕ} {summary : S}
    {inputs : List (List (Antichain S) × ℕ)} {state' : OutputSummaries S × List (Location × ℕ × S)}
    (h : WithinOutputs outputs state) (houtput : output < outputs)
    (hrun : Builder.crawl_operator node output_port output summary inputs state = some state') :
    WithinOutputs outputs state' := by
  induction inputs generalizing state with
  | nil =>
    rw [Builder.crawl_operator, Option.some.injEq] at hrun
    rwa [← hrun]
  | cons input inputs ih =>
    unfold Builder.crawl_operator at hrun
    split at hrun
    case h_1 => cases hrun
    case h_2 antichain _ =>
      refine ih ?_ hrun
      have hentered := h.insert (Location.new_target node input.2)
        (h.length_antichains_at (Location.new_target node input.2) houtput)
      generalize (state.1.insert _ _, state.2) = entered at hentered ⊢
      -- each internal summary is recorded in turn
      induction antichain.elements generalizing entered with
      | nil => exact hentered
      | cons operator_summary elements ihElements =>
        rw [List.foldl_cons]
        apply ihElements
        split
        · exact hentered
        · exact hentered.record_summary _ houtput _

theorem WithinOutputs.summarize_step {builder : Builder S} {entry : Location × ℕ × S}
    {state' : OutputSummaries S × List (Location × ℕ × S)} (h : WithinOutputs outputs state)
    (hentry : entry.2.1 < outputs) (hstep : builder.summarize_step entry state = some state') :
    WithinOutputs outputs state' := by
  obtain ⟨⟨node, port⟩, output, summary⟩ := entry
  cases port with
  | source output_port =>
    simp only [Builder.summarize_step] at hstep
    split at hstep
    case h_1 => cases hstep
    case h_2 inputs _ => exact h.crawl_operator hentry hstep
  | target _ =>
    simp only [Builder.summarize_step] at hstep
    split at hstep
    case h_1 => rwa [← Option.some.inj hstep]
    case h_2 source _ =>
      rw [← Option.some.inj hstep]
      exact h.record_summary source hentry summary

theorem WithinOutputs.summarize_loop {builder : Builder S} {fuel : ℕ}
    {results : OutputSummaries S} (h : WithinOutputs outputs state)
    (hrun : builder.summarize_loop fuel state = some results) :
    ∀ location antichains, results.lookup location = some antichains →
      antichains.length ≤ outputs := by
  induction fuel generalizing state with
  | zero =>
    obtain ⟨found, worklist⟩ := state
    cases worklist with
    | nil =>
      rw [Builder.summarize_loop, Option.some.injEq] at hrun
      rw [← hrun]
      exact h.1
    | cons entry worklist => simp [Builder.summarize_loop] at hrun
  | succ fuel ih =>
    obtain ⟨found, worklist⟩ := state
    cases worklist with
    | nil =>
      rw [Builder.summarize_loop, Option.some.injEq] at hrun
      rw [← hrun]
      exact h.1
    | cons entry worklist =>
      unfold Builder.summarize_loop at hrun
      have hentry : entry.2.1 < outputs := h.2 entry (by simp)
      have hrest : WithinOutputs outputs (found, worklist) :=
        ⟨h.1, fun other hother => h.2 other (by simp [hother])⟩
      split at hrun
      case h_1 => cases hrun
      case h_2 next hstep =>
        refine ih ?_ hrun
        exact hrest.summarize_step hentry hstep

/-- When every edge to a scope output names an existing one, every location has at most as
    many antichains as the scope has outputs. -/
theorem length_le_of_summarize_outputs {builder : Builder S} {fuel : ℕ}
    {results : OutputSummaries S} (htargets : ∀ target ∈ builder.output_targets, target.port < outputs)
    (hrun : builder.summarize_outputs fuel = some results) :
    ∀ location antichains, results.lookup location = some antichains →
      antichains.length ≤ outputs := by
  refine WithinOutputs.summarize_loop ?_ hrun
  constructor
  · intro location antichains hlookup
    rw [AList.lookup_empty] at hlookup
    cases hlookup
  · intro entry hentry
    obtain ⟨target, htarget, rfl⟩ := List.mem_map.mp hentry
    exact htargets target htarget

end Builder

end Timely
