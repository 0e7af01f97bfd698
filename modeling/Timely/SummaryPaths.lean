/-
  Timely/SummaryPaths.lean
  ========================
  **`summarize_outputs` finds the minimal summaries of all paths**
  (`timely/src/progress/reachability.rs`, `summarize_outputs`).

  The loop is a saturation: an entry of its worklist is a summary with a location
  and an output as its key, and what follows from it is one step further up the
  graph.  Unsigned summaries and nested products of them are well-quasi-ordered,
  so the loop ends on every graph, and they compose monotonically, so it ends
  with the minimal compositions along the paths to each output.
-/
import Timely.Acyclic
import Timely.Summaries
import Timely.Library.Saturation

set_option linter.unusedSectionVars false

namespace Timely

open Library

/-! ### Composition of summaries -/

/-- Summaries compose monotonically: below a summary that composes, every summary composes, to
    something no later. -/
class MonotoneComposition (S : Type) (T : outParam Type) [PartialOrder S] [PathSummary S T] :
    Prop where
  followed_by_mono : ∀ (first : S) {early late result : S}, early ≤ late →
    PathSummary.followed_by first late = some result →
    ∃ lower, PathSummary.followed_by first early = some lower ∧ lower ≤ result

instance {width : ℕ} : MonotoneComposition (Unsigned width) (Unsigned width) where
  followed_by_mono summary {_ _ _} hle h := MonotoneSummary.results_in_mono summary hle h

/-- Unsigned integers read as unbounded numbers. -/
instance : PathSummary ℕ ℕ where
  results_in summary time := some (summary + time)
  followed_by first second := some (first + second)

instance : MonotoneComposition ℕ ℕ where
  followed_by_mono summary {_ _ _} hle h := by
    cases h
    exact ⟨_, rfl, Nat.add_le_add_left hle summary⟩

namespace Product

variable {TOuter TInner SOuter SInner : Type}

instance [PartialOrder SOuter] [PartialOrder SInner] [PathSummary SOuter TOuter]
    [PathSummary SInner TInner] [MonotoneComposition SOuter TOuter]
    [MonotoneComposition SInner TInner] :
    MonotoneComposition (Product SOuter SInner) (Product TOuter TInner) where
  followed_by_mono first {early late result} hle h := by
    rw [followed_by_eq_some] at h
    obtain ⟨outer, houter, houterLe⟩ :=
      MonotoneComposition.followed_by_mono first.outer hle.1 h.1
    obtain ⟨inner, hinner, hinnerLe⟩ :=
      MonotoneComposition.followed_by_mono first.inner hle.2 h.2
    exact ⟨⟨outer, inner⟩, followed_by_eq_some.mpr ⟨houter, hinner⟩, houterLe, hinnerLe⟩

/-- Pairs of well-quasi-ordered summaries are well-quasi-ordered. -/
instance [PartialOrder SOuter] [PartialOrder SInner] [WellQuasiOrderedLE SOuter]
    [WellQuasiOrderedLE SInner] : WellQuasiOrderedLE (Product SOuter SInner) where
  wqo := by
    intro sequence
    obtain ⟨early, late, hlt, hle⟩ := wellQuasiOrdered_le
      fun index => ((sequence index).outer, (sequence index).inner)
    exact ⟨early, late, hlt, hle⟩

end Product

namespace Builder

variable {S T : Type} [PartialOrder S] [DecidableLE S] [PathSummary S T]

/-! ### Paths to an output -/

/-- The internal summaries along a path from a location to an output of the scope. -/
inductive PathTo (builder : Builder S) (output : ℕ) : Location → List S → Prop
  | output : PathTo builder output (Location.new_target 0 output) []
  | edge {node port : ℕ} {targets : List Target} {target : Target} {summaries : List S} :
      builder.targets_of node port = some targets → target ∈ targets →
      PathTo builder output (Location.from_target target) summaries →
      PathTo builder output (Location.new_source node port) summaries
  | summary {node input port : ℕ} {outputs : List (Antichain S)} {antichain : Antichain S}
      {summary : S} {summaries : List S} :
      builder.summaries_of node input = some outputs → outputs[port]? = some antichain →
      summary ∈ antichain.elements →
      PathTo builder output (Location.new_source node port) summaries →
      PathTo builder output (Location.new_target node input) (summary :: summaries)

/-- The composition of the summaries along a path; `none` where it overflows. -/
def compose (summaries : List S) : Option S :=
  summaries.foldr (fun summary rest => rest.bind fun rest => PathSummary.followed_by summary rest)
    (some default)

/-- The summary is the composition along some path from the location to the output. -/
def Composed (builder : Builder S) (output : ℕ) (location : Location) (summary : S) : Prop :=
  ∃ summaries, PathTo builder output location summaries ∧ compose summaries = some summary

/-- Each target has at most one source. -/
def OneSource (builder : Builder S) : Prop :=
  ∀ {node port node' port' : ℕ} {targets targets' : List Target} {target : Target},
    builder.targets_of node port = some targets → target ∈ targets →
    builder.targets_of node' port' = some targets' → target ∈ targets' →
    node = node' ∧ port = port'

/-! ### The reverse edge map -/

/-- The edges, from their targets to their sources. -/
def reversed (builder : Builder S) : List (Location × Location) :=
  builder.edges.zipIdx.flatMap fun outputs => outputs.1.zipIdx.flatMap fun targets =>
    targets.1.map fun target =>
      (Location.from_target target, Location.new_source outputs.2 targets.2)

omit [PartialOrder S] [DecidableLE S] in
theorem reverse_edges_eq (builder : Builder S) :
    builder.reverse_edges = builder.reversed.foldl
      (fun reverse edge => reverse.insert edge.1 edge.2) ∅ := by
  unfold reverse_edges reversed
  simp only [List.foldl_flatMap, List.foldl_map]

omit [PartialOrder S] [DecidableLE S] in
theorem mem_reversed {builder : Builder S} {edge : Location × Location} :
    edge ∈ builder.reversed ↔ ∃ node port targets target,
      builder.targets_of node port = some targets ∧ target ∈ targets ∧
        edge = (Location.from_target target, Location.new_source node port) := by
  unfold reversed
  simp only [List.mem_flatMap, List.mem_map]
  constructor
  · rintro ⟨⟨outputs, node⟩, houtputs, ⟨targets, port⟩, htargets, target, htarget, rfl⟩
    rw [List.mem_zipIdx_iff_getElem?] at houtputs htargets
    refine ⟨node, port, targets, target, ?_, htarget, rfl⟩
    unfold targets_of
    rw [houtputs, Option.bind_some]
    exact htargets
  · rintro ⟨node, port, targets, target, htargets, htarget, rfl⟩
    obtain ⟨outputs, houtputs, hport⟩ := Option.bind_eq_some_iff.mp htargets
    exact ⟨(outputs, node), List.mem_zipIdx_iff_getElem?.mpr houtputs, (targets, port),
      List.mem_zipIdx_iff_getElem?.mpr hport, target, htarget, rfl⟩

theorem mem_of_lookup_foldl_insert {edges : List (Location × Location)} {location source : Location}
    (h : (edges.foldl (fun (reverse : AList fun _ : Location => Location) edge =>
      reverse.insert edge.1 edge.2) ∅).lookup location = some source) : (location, source) ∈ edges := by
  induction edges using List.reverseRecOn with
  | nil => cases h
  | append_singleton edges edge ih =>
    rw [List.foldl_append, List.foldl_cons, List.foldl_nil] at h
    by_cases heq : location = edge.1
    · subst heq
      rw [AList.lookup_insert, Option.some.injEq] at h
      simp [← h]
    · rw [AList.lookup_insert_ne heq] at h
      exact List.mem_append_left _ (ih h)

theorem lookup_foldl_insert_isSome {edges : List (Location × Location)} {edge : Location × Location}
    (h : edge ∈ edges) :
    ((edges.foldl (fun (reverse : AList fun _ : Location => Location) edge =>
      reverse.insert edge.1 edge.2) ∅).lookup edge.1).isSome := by
  induction edges using List.reverseRecOn with
  | nil => cases h
  | append_singleton edges last ih =>
    rw [List.foldl_append, List.foldl_cons, List.foldl_nil]
    by_cases heq : edge.1 = last.1
    · rw [heq, AList.lookup_insert]
      rfl
    · rw [AList.lookup_insert_ne heq]
      rcases List.mem_append.mp h with hmem | hmem
      · exact ih hmem
      · rw [List.mem_singleton] at hmem
        exact absurd (congrArg Prod.fst hmem) heq

omit [PartialOrder S] [DecidableLE S] in
/-- What the map finds is the source of an edge. -/
theorem edge_of_lookup_reverse {builder : Builder S} {location source : Location}
    (h : builder.reverse_edges.lookup location = some source) :
    ∃ node port targets target, builder.targets_of node port = some targets ∧ target ∈ targets ∧
      location = Location.from_target target ∧ source = Location.new_source node port := by
  rw [reverse_edges_eq] at h
  obtain ⟨node, port, targets, target, htargets, htarget, heq⟩ :=
    mem_reversed.mp (mem_of_lookup_foldl_insert h)
  obtain ⟨rfl, rfl⟩ := Prod.mk.inj heq
  exact ⟨node, port, targets, target, htargets, htarget, rfl, rfl⟩

omit [PartialOrder S] [DecidableLE S] in
/-- With one source for each target the map finds it. -/
theorem OneSource.lookup_reverse {builder : Builder S} (h : builder.OneSource) {node port : ℕ}
    {targets : List Target} {target : Target} (htargets : builder.targets_of node port = some targets)
    (htarget : target ∈ targets) :
    builder.reverse_edges.lookup (Location.from_target target) =
      some (Location.new_source node port) := by
  have hsome : (builder.reverse_edges.lookup (Location.from_target target)).isSome := by
    rw [reverse_edges_eq]
    exact lookup_foldl_insert_isSome
      (mem_reversed.mpr ⟨node, port, targets, target, htargets, htarget, rfl⟩)
  obtain ⟨source, hsource⟩ := Option.isSome_iff_exists.mp hsome
  obtain ⟨node', port', targets', target', htargets', htarget', hlocation, rfl⟩ :=
    edge_of_lookup_reverse hsource
  obtain rfl := Location.from_target_injective hlocation
  obtain ⟨rfl, rfl⟩ := h htargets htarget htargets' htarget'
  exact hsource

omit [PartialOrder S] [DecidableLE S] in
/-- The node of an existing source has summaries from each of its inputs to that source. -/
theorem exists_inputs_of_source (builder : Builder S) {node port : ℕ}
    (h : builder.has_location (Location.new_source node port) = true) :
    ∃ inputs, builder.nodes[node]? = some inputs ∧ ∀ outputs ∈ inputs, port < outputs.length := by
  unfold has_location Location.new_source at h
  cases hshape : builder.shape[node]? with
  | none => simp [hshape] at h
  | some ports =>
    have hlength : node < builder.nodes.length := by
      rw [builder.nodes_length]
      exact (List.getElem?_eq_some_iff.mp hshape).1
    refine ⟨builder.nodes[node], List.getElem?_eq_getElem hlength, fun outputs houtputs => ?_⟩
    have hports := (builder.nodes_shape node _ _ (List.getElem?_eq_getElem hlength) hshape).2
      outputs houtputs
    rw [hports]
    simpa [hshape] using h

/-! ### The loop as a saturation -/

/-- The antichain of a location and an output, taken as empty where it is missing. -/
def antichain_at (results : OutputSummaries S) (location : Location) (output : ℕ) : Antichain S :=
  (((results.lookup location).getD [])[output]?).getD Antichain.new

/-- The state of the loop, with locations and outputs for keys. -/
def saturation (state : OutputSummaries S × List (Location × ℕ × S)) :
    Saturation (Location × ℕ) S where
  front key := (antichain_at state.1 key.1 key.2).elements
  worklist := state.2.map fun entry => ((entry.1, entry.2.1), entry.2.2)

/-- What one entry of the worklist leads to. -/
def derive (builder : Builder S) (item : (Location × ℕ) × S) : List ((Location × ℕ) × S) :=
  match item.1.1.port with
  | .source output_port =>
    ((builder.nodes[item.1.1.node]?).getD []).zipIdx.flatMap fun input =>
      (((input.1[output_port]?).getD Antichain.new).elements.filterMap fun summary =>
        PathSummary.followed_by summary item.2).map fun combined =>
          ((Location.new_target item.1.1.node input.2, item.1.2), combined)
  | .target _ =>
    match builder.reverse_edges.lookup item.1.1 with
    | none => []
    | some source => [((source, item.1.2), item.2)]

omit [PartialOrder S] [DecidableLE S] [PathSummary S T] in
/-- Making room for an output shows no other antichain. -/
theorem getElem?_antichains_at (results : OutputSummaries S) (location : Location)
    (output other : ℕ) :
    ((antichains_at results location output)[other]?).getD Antichain.new =
      antichain_at results location other := by
  unfold antichains_at antichain_at
  by_cases hold : other < ((results.lookup location).getD []).length
  · rw [List.getElem?_append_left hold]
  · rw [List.getElem?_append_right (Nat.le_of_not_lt hold), List.getElem?_eq_none
      (Nat.le_of_not_lt hold), List.getElem?_replicate]
    split <;> rfl

omit [PartialOrder S] [DecidableLE S] [PathSummary S T] in
theorem antichain_at_insert (results : OutputSummaries S) (location other : Location)
    (antichains : List (Antichain S)) (output : ℕ) :
    antichain_at (results.insert location antichains) other output =
      if other = location then (antichains[output]?).getD Antichain.new
      else antichain_at results other output := by
  unfold antichain_at
  by_cases h : other = location
  · subst h
    rw [AList.lookup_insert, if_pos rfl]
    rfl
  · rw [AList.lookup_insert_ne h, if_neg h]

omit [PartialOrder S] [DecidableLE S] [PathSummary S T] in
/-- Entering a location with empty antichains is not observed. -/
theorem saturation_enter (state : OutputSummaries S × List (Location × ℕ × S)) (location : Location)
    (output : ℕ) :
    saturation (state.1.insert location (antichains_at state.1 location output), state.2) =
      saturation state := by
  have hfront : ∀ key : Location × ℕ,
      antichain_at (state.1.insert location (antichains_at state.1 location output)) key.1 key.2 =
        antichain_at state.1 key.1 key.2 := by
    intro key
    rw [antichain_at_insert]
    split
    case isTrue h => rw [getElem?_antichains_at, h]
    case isFalse => rfl
  unfold saturation
  simp only [hfront]

omit [PathSummary S T] in
/-- Recording a summary is recording an item. -/
theorem saturation_record_summary (location : Location) (output : ℕ) (summary : S)
    (state : OutputSummaries S × List (Location × ℕ × S)) :
    saturation (record_summary location output summary state) =
      (saturation state).record ((location, output), summary) := by
  have hinsert := Antichain.insert_eq_insertMinimal (antichain_at state.1 location output) summary
  have hroom : output < (antichains_at state.1 location output).length := by
    unfold antichains_at
    rw [List.length_append, List.length_replicate]
    omega
  unfold record_summary saturation Saturation.record
  simp only [getElem?_antichains_at]
  congr 1
  · funext key
    obtain ⟨other, port⟩ := key
    rw [antichain_at_insert]
    by_cases hkey : (other, port) = (location, output)
    · obtain ⟨rfl, rfl⟩ := Prod.mk.inj hkey
      rw [if_pos rfl, Function.update_self, List.getElem?_set_self hroom]
      exact hinsert.2
    · rw [Function.update_of_ne hkey]
      by_cases hlocation : other = location
      · subst hlocation
        have hport : output ≠ port := fun heq => hkey (by rw [heq])
        rw [if_pos rfl, List.getElem?_set_ne hport, getElem?_antichains_at]
      · rw [if_neg hlocation]
  · rw [hinsert.1]
    split
    · rw [List.map_append]
      rfl
    · rfl

/-- Crawling up an operator records what follows from the entry. -/
theorem saturation_crawl_operator {node output_port output : ℕ} {summary : S}
    {inputs : List (List (Antichain S) × ℕ)}
    (hports : ∀ input ∈ inputs, output_port < input.1.length)
    (state : OutputSummaries S × List (Location × ℕ × S)) :
    ∃ after, crawl_operator node output_port output summary inputs state = some after ∧
      saturation after = (inputs.flatMap fun input =>
        (((input.1[output_port]?).getD Antichain.new).elements.filterMap fun first =>
          PathSummary.followed_by first summary).map fun combined =>
            ((Location.new_target node input.2, output), combined)).foldl Saturation.record
              (saturation state) := by
  induction inputs generalizing state with
  | nil => exact ⟨state, rfl, rfl⟩
  | cons input inputs ih =>
    obtain ⟨summaries, input_port⟩ := input
    have hport : output_port < summaries.length := hports (summaries, input_port) (by simp)
    have hfold : ∀ (elements : List S) (state : OutputSummaries S × List (Location × ℕ × S)),
        saturation (elements.foldl (fun state operator_summary =>
          (PathSummary.followed_by operator_summary summary).elim state fun combined =>
            record_summary (Location.new_target node input_port) output combined state) state) =
          ((elements.filterMap fun first => PathSummary.followed_by first summary).map fun combined =>
            ((Location.new_target node input_port, output), combined)).foldl Saturation.record
              (saturation state) := by
      intro elements
      induction elements with
      | nil => exact fun _ => rfl
      | cons element elements ihElements =>
        intro state
        rw [List.foldl_cons, ihElements]
        cases hfollowed : PathSummary.followed_by element summary with
        | none => simp [hfollowed]
        | some combined => simp [hfollowed, saturation_record_summary]
    obtain ⟨after, hafter, hsame⟩ := ih (fun other hother => hports other (by simp [hother]))
      ((summaries[output_port]).elements.foldl (fun state operator_summary =>
        (PathSummary.followed_by operator_summary summary).elim state fun combined =>
          record_summary (Location.new_target node input_port) output combined state)
        (state.1.insert (Location.new_target node input_port)
          (antichains_at state.1 (Location.new_target node input_port) output), state.2))
    refine ⟨after, ?_, ?_⟩
    · unfold crawl_operator
      rw [List.getElem?_eq_getElem hport, ← hafter]
      dsimp only
      congr 2
      funext state operator_summary
      cases PathSummary.followed_by operator_summary summary <;> rfl
    · rw [hsame, hfold, saturation_enter, List.flatMap_cons, List.foldl_append,
        List.getElem?_eq_getElem hport]
      rfl

/-- Where the port of an entry exists, one iteration records what follows from the entry. -/
theorem saturation_summarize_step {builder : Builder S} {entry : Location × ℕ × S}
    (hentry : entry.1.is_source = true → builder.has_location entry.1 = true)
    (state : OutputSummaries S × List (Location × ℕ × S)) :
    ∃ after, builder.summarize_step entry state = some after ∧
      saturation after = (builder.derive ((entry.1, entry.2.1), entry.2.2)).foldl
        Saturation.record (saturation state) := by
  obtain ⟨⟨node, port⟩, output, summary⟩ := entry
  cases port with
  | source output_port =>
    obtain ⟨inputs, hinputs, hports⟩ := builder.exists_inputs_of_source (hentry rfl)
    obtain ⟨after, hafter, hsame⟩ := saturation_crawl_operator
      (fun input hinput => hports input.1 (List.fst_mem_of_mem_zipIdx hinput)) state
    refine ⟨after, ?_, ?_⟩
    · simp only [summarize_step, hinputs]
      exact hafter
    · rw [hsame]
      simp only [derive, hinputs, Option.getD_some]
  | target port =>
    simp only [summarize_step, derive]
    cases builder.reverse_edges.lookup ⟨node, .target port⟩ with
    | none => exact ⟨state, rfl, rfl⟩
    | some source => exact ⟨_, rfl, saturation_record_summary source output summary state⟩

/-! ### What follows are the compositions along paths -/

/-- The entries that the loop starts with: the default summary at each scope output. -/
def seeds (builder : Builder S) (item : (Location × ℕ) × S) : Prop :=
  ∃ target ∈ builder.output_targets, item = ((Location.from_target target, target.port), default)

theorem mem_derive_source {builder : Builder S} {node port output : ℕ} {summary : S}
    {next : (Location × ℕ) × S} :
    next ∈ builder.derive ((Location.new_source node port, output), summary) ↔
      ∃ input outputs antichain first, builder.summaries_of node input = some outputs ∧
        outputs[port]? = some antichain ∧ first ∈ antichain.elements ∧
        next.1 = (Location.new_target node input, output) ∧
        PathSummary.followed_by first summary = some next.2 := by
  obtain ⟨key, combined⟩ := next
  unfold derive Location.new_source summaries_of
  simp only [List.mem_flatMap, List.mem_map, List.mem_filterMap, Prod.mk.injEq]
  constructor
  · rintro ⟨⟨outputs, input⟩, hinput, value, ⟨first, hfirst, hfollowed⟩, rfl, rfl⟩
    rw [List.mem_zipIdx_iff_getElem?] at hinput
    cases hinputs : builder.nodes[node]? with
    | none =>
      rw [hinputs] at hinput
      cases hinput
    | some inputs =>
      rw [hinputs] at hinput
      cases hantichain : outputs[port]? with
      | none =>
        rw [hantichain] at hfirst
        exact absurd hfirst List.not_mem_nil
      | some antichain =>
        rw [hantichain] at hfirst
        exact ⟨input, outputs, antichain, first, hinput, hantichain, hfirst, rfl, hfollowed⟩
  · rintro ⟨input, outputs, antichain, first, houtputs, hantichain, hfirst, rfl, hfollowed⟩
    obtain ⟨inputs, hinputs, hinput⟩ := Option.bind_eq_some_iff.mp houtputs
    refine ⟨(outputs, input), ?_, combined, ⟨first, ?_, hfollowed⟩, rfl, rfl⟩
    · rw [hinputs]
      exact List.mem_zipIdx_iff_getElem?.mpr hinput
    · rw [hantichain]
      exact hfirst

theorem mem_derive_target {builder : Builder S} {location : Location} {output port : ℕ} {summary : S}
    (hport : location.port = .target port) {next : (Location × ℕ) × S} :
    next ∈ builder.derive ((location, output), summary) ↔
      ∃ source, builder.reverse_edges.lookup location = some source ∧
        next = ((source, output), summary) := by
  unfold derive
  simp only [hport]
  cases builder.reverse_edges.lookup location with
  | none => simp
  | some source => simp

/-- Composing with an internal summary, or going back along an edge, extends a path. -/
theorem Composed.derive {builder : Builder S} {item next : (Location × ℕ) × S}
    (h : builder.Composed item.1.2 item.1.1 item.2) (hnext : next ∈ builder.derive item) :
    builder.Composed next.1.2 next.1.1 next.2 := by
  obtain ⟨⟨⟨node, port⟩, output⟩, summary⟩ := item
  obtain ⟨summaries, hpath, hcompose⟩ := h
  cases port with
  | source port =>
    obtain ⟨input, outputs, antichain, first, houtputs, hantichain, hfirst, hkey, hfollowed⟩ :=
      mem_derive_source.mp hnext
    rw [hkey]
    refine ⟨first :: summaries, PathTo.summary houtputs hantichain hfirst hpath, ?_⟩
    unfold compose at hcompose ⊢
    rw [List.foldr_cons, hcompose]
    exact hfollowed
  | target port =>
    obtain ⟨source, hsource, rfl⟩ := (mem_derive_target rfl).mp hnext
    obtain ⟨node', port', targets, target, htargets, htarget, hlocation, rfl⟩ :=
      edge_of_lookup_reverse hsource
    rw [hlocation] at hpath
    exact ⟨summaries, PathTo.edge htargets htarget hpath, hcompose⟩

theorem composed_of_seed {builder : Builder S} {item : (Location × ℕ) × S}
    (h : builder.seeds item) : builder.Composed item.1.2 item.1.1 item.2 := by
  obtain ⟨⟨node, port⟩, htarget, rfl⟩ := h
  have hnode : node = 0 := by simpa using (List.mem_filter.mp htarget).2
  subst hnode
  exact ⟨[], PathTo.output, rfl⟩

theorem composed_of_follows {builder : Builder S} {item : (Location × ℕ) × S}
    (h : Saturation.Follows builder.derive builder.seeds item) :
    builder.Composed item.1.2 item.1.1 item.2 := by
  induction h with
  | seed hseed hnext => exact (composed_of_seed hseed).derive hnext
  | step _ hnext ih => exact ih.derive hnext

omit [PartialOrder S] [DecidableLE S] [PathSummary S T] in
theorem mem_output_targets_of_edge {builder : Builder S} {node port : ℕ} {targets : List Target}
    {target : Target} (htargets : builder.targets_of node port = some targets)
    (htarget : target ∈ targets) (hnode : target.node = 0) : target ∈ builder.output_targets := by
  obtain ⟨outputs, houtputs, hport⟩ := Option.bind_eq_some_iff.mp htargets
  refine List.mem_filter.mpr ⟨?_, by simpa using hnode⟩
  exact List.mem_flatten.mpr ⟨targets, List.mem_flatten.mpr
    ⟨outputs, List.mem_of_getElem? houtputs, List.mem_of_getElem? hport⟩, htarget⟩

/-- Every composition along a path that is not empty follows from the scope outputs. -/
theorem follows_of_pathTo {builder : Builder S} (hsource : builder.OneSource) {output : ℕ}
    {location : Location} {summaries : List S} (h : builder.PathTo output location summaries) :
    ∀ {summary : S}, compose summaries = some summary →
      (location = Location.new_target 0 output ∧ summary = default) ∨
        Saturation.Follows builder.derive builder.seeds ((location, output), summary) := by
  induction h with
  | output =>
    intro summary hcompose
    exact Or.inl ⟨rfl, (Option.some.inj hcompose).symm⟩
  | @edge node port targets target summaries htargets htarget _ ih =>
    intro summary hcompose
    right
    have hnext : ((Location.new_source node port, output), summary) ∈
        builder.derive ((Location.from_target target, output), summary) :=
      (mem_derive_target rfl).mpr ⟨_, hsource.lookup_reverse htargets htarget, rfl⟩
    rcases ih hcompose with ⟨hlocation, hdefault⟩ | hfollows
    · -- the edge to the output itself
      have htargetEq : target = ⟨0, output⟩ := Location.from_target_injective hlocation
      subst htargetEq
      have hseed : builder.seeds ((Location.from_target ⟨0, output⟩, output), summary) :=
        ⟨⟨0, output⟩, mem_output_targets_of_edge htargets htarget rfl, by rw [hdefault]⟩
      exact Saturation.Follows.seed hseed hnext
    · exact Saturation.Follows.step hfollows hnext
  | @summary node input port outputs antichain first summaries houtputs hantichain hfirst _ ih =>
    intro summary hcompose
    right
    obtain ⟨rest, hrest, hfollowed⟩ := Option.bind_eq_some_iff.mp hcompose
    have hnext : ((Location.new_target node input, output), summary) ∈
        builder.derive ((Location.new_source node port, output), rest) :=
      mem_derive_source.mpr
        ⟨input, outputs, antichain, first, houtputs, hantichain, hfirst, rfl, hfollowed⟩
    rcases ih hrest with ⟨hlocation, _⟩ | hfollows
    · cases hlocation
    · exact Saturation.Follows.step hfollows hnext

theorem follows_iff_composed {builder : Builder S} (hsource : builder.OneSource) {output : ℕ}
    {location : Location} (hlocation : location ≠ Location.new_target 0 output) (summary : S) :
    Saturation.Follows builder.derive builder.seeds ((location, output), summary) ↔
      builder.Composed output location summary := by
  constructor
  · exact composed_of_follows
  · rintro ⟨summaries, hpath, hcompose⟩
    exact (follows_of_pathTo hsource hpath hcompose).resolve_left fun h => hlocation h.1

theorem deriveMonotone [MonotoneComposition S T] (builder : Builder S) :
    Saturation.DeriveMonotone builder.derive := by
  rintro ⟨⟨node, port⟩, output⟩ early late next hle hnext
  cases port with
  | source port =>
    obtain ⟨input, outputs, antichain, first, houtputs, hantichain, hfirst, hkey, hfollowed⟩ :=
      mem_derive_source.mp hnext
    obtain ⟨lower, hlower, hbelow⟩ := MonotoneComposition.followed_by_mono first hle hfollowed
    exact ⟨lower, mem_derive_source.mpr
      ⟨input, outputs, antichain, first, houtputs, hantichain, hfirst, hkey, hlower⟩, hbelow⟩
  | target port =>
    obtain ⟨source, hsource, rfl⟩ := (mem_derive_target rfl).mp hnext
    exact ⟨early, (mem_derive_target rfl).mpr ⟨source, hsource, rfl⟩, hle⟩

/-! ### Runs of the loop, in any order -/

/-- The state in which the loop starts. -/
def summarize_start (builder : Builder S) : OutputSummaries S × List (Location × ℕ × S) :=
  (∅, builder.output_targets.map fun target =>
    (Location.from_target target, target.port, default))

/-- The loop ends with the given results when it takes the entries of its worklist in some
    order. -/
inductive Summarizes (builder : Builder S) :
    OutputSummaries S × List (Location × ℕ × S) → OutputSummaries S → Prop
  | done {results : OutputSummaries S} : Summarizes builder (results, []) results
  | next {results final : OutputSummaries S} {worklist rest : List (Location × ℕ × S)}
      {entry : Location × ℕ × S} {state : OutputSummaries S × List (Location × ℕ × S)} :
      worklist.Perm (entry :: rest) → builder.summarize_step entry (results, rest) = some state →
      Summarizes builder state final → Summarizes builder (results, worklist) final

/-- The first-in first-out loop takes them in one such order. -/
theorem summarizes_of_summarize_loop {builder : Builder S} {fuel : ℕ}
    {state : OutputSummaries S × List (Location × ℕ × S)} {results : OutputSummaries S}
    (h : builder.summarize_loop fuel state = some results) : builder.Summarizes state results := by
  induction fuel generalizing state with
  | zero =>
    obtain ⟨found, worklist⟩ := state
    cases worklist with
    | nil =>
      cases h
      exact Summarizes.done
    | cons entry worklist => cases h
  | succ fuel ih =>
    obtain ⟨found, worklist⟩ := state
    cases worklist with
    | nil =>
      cases h
      exact Summarizes.done
    | cons entry worklist =>
      unfold summarize_loop at h
      split at h
      case h_1 => cases h
      case h_2 next hstep => exact Summarizes.next (List.Perm.refl _) hstep (ih h)

/-- The keys of entries whose locations, if they are sources, exist, and whose outputs are
    named by an edge. -/
def region (builder : Builder S) : Set (Location × ℕ) :=
  {key | (key.1.is_source = true → builder.has_location key.1 = true) ∧
    key.2 ∈ builder.output_targets.map Target.port}

/-- The finitely many keys of what follows from such entries. -/
def region_keys (builder : Builder S) : Finset (Location × ℕ) :=
  builder.locations.toFinset ×ˢ (builder.output_targets.map Target.port).toFinset

omit [PartialOrder S] [DecidableLE S] [PathSummary S T] in
theorem mem_region_keys {builder : Builder S} {key : Location × ℕ} :
    key ∈ builder.region_keys ↔ builder.has_location key.1 = true ∧
      key.2 ∈ builder.output_targets.map Target.port := by
  unfold region_keys
  rw [Finset.mem_product, List.mem_toFinset, List.mem_toFinset, mem_locations_iff]

theorem derive_mem_region_keys {builder : Builder S} (item : (Location × ℕ) × S)
    (hitem : item.1 ∈ builder.region) (next : (Location × ℕ) × S) (hnext : next ∈ builder.derive item) :
    next.1 ∈ builder.region_keys := by
  obtain ⟨⟨⟨node, port⟩, output⟩, summary⟩ := item
  rw [mem_region_keys]
  cases port with
  | source port =>
    obtain ⟨input, outputs, _, _, houtputs, _, _, hkey, _⟩ := mem_derive_source.mp hnext
    rw [hkey, ← summaries_of_isSome, houtputs]
    exact ⟨rfl, hitem.2⟩
  | target port =>
    obtain ⟨source, hsource, rfl⟩ := (mem_derive_target rfl).mp hnext
    obtain ⟨node', port', targets, target, htargets, _, _, rfl⟩ := edge_of_lookup_reverse hsource
    rw [← targets_of_isSome, htargets]
    exact ⟨rfl, hitem.2⟩

theorem region_keys_subset {builder : Builder S} :
    ∀ key ∈ builder.region_keys, key ∈ builder.region :=
  fun _ hkey => ⟨fun _ => (mem_region_keys.mp hkey).1, (mem_region_keys.mp hkey).2⟩

theorem inside_start (builder : Builder S) :
    (saturation builder.summarize_start).Inside builder.region := by
  intro item hitem
  obtain ⟨entry, hentry, rfl⟩ := List.mem_map.mp hitem
  obtain ⟨target, htarget, rfl⟩ := List.mem_map.mp hentry
  refine ⟨?_, List.mem_map_of_mem htarget⟩
  intro hsource
  cases hsource

theorem saturating_start (builder : Builder S) :
    (saturation builder.summarize_start).Saturating builder.derive builder.seeds := by
  refine Saturation.saturating_start fun item => ?_
  rw [List.mem_map]
  constructor
  · rintro ⟨entry, hentry, rfl⟩
    obtain ⟨target, htarget, rfl⟩ := List.mem_map.mp hentry
    exact ⟨target, htarget, rfl⟩
  · rintro ⟨target, htarget, rfl⟩
    exact ⟨_, List.mem_map_of_mem htarget, rfl⟩

/-- An iteration of the loop is one of the saturation. -/
theorem step_of_summarize_step {builder : Builder S} {results : OutputSummaries S}
    {worklist rest : List (Location × ℕ × S)} {entry : Location × ℕ × S}
    (hinside : (saturation (results, worklist)).Inside builder.region)
    (hperm : worklist.Perm (entry :: rest)) :
    ∃ state, builder.summarize_step entry (results, rest) = some state ∧
      Saturation.Step builder.derive (saturation (results, worklist)) (saturation state) := by
  have hmapped := hperm.map fun entry : Location × ℕ × S => ((entry.1, entry.2.1), entry.2.2)
  have hentry : (entry.1, entry.2.1) ∈ builder.region := by
    have hmem : ((entry.1, entry.2.1), entry.2.2) ∈ (saturation (results, worklist)).worklist :=
      hmapped.mem_iff.mpr (by simp)
    exact hinside _ hmem
  obtain ⟨state, hstate, hsame⟩ := saturation_summarize_step hentry.1 (results, rest)
  refine ⟨state, hstate, ?_⟩
  rw [hsame]
  exact Saturation.Step.take hmapped

theorem Summarizes.isFrontier [MonotoneComposition S T] {builder : Builder S}
    {state : OutputSummaries S × List (Location × ℕ × S)} {results : OutputSummaries S}
    (h : builder.Summarizes state results) (hinside : (saturation state).Inside builder.region)
    (hsaturating : (saturation state).Saturating builder.derive builder.seeds)
    (location : Location) (output : ℕ) :
    IsFrontier (antichain_at results location output).elements fun summary =>
      Saturation.Follows builder.derive builder.seeds ((location, output), summary) := by
  induction h with
  | done => exact hsaturating.isFrontier rfl builder.deriveMonotone (location, output)
  | next hperm hstep _ ih =>
    obtain ⟨state, hstate, hmoved⟩ := step_of_summarize_step hinside hperm
    obtain rfl := Option.some.inj (hstate.symm.trans hstep)
    exact ih (hinside.step derive_mem_region_keys region_keys_subset hmoved) (hsaturating.step hmoved)

/-! ### The loop ends, with the minimal compositions -/

theorem exists_summarize_loop {builder : Builder S}
    {state : OutputSummaries S × List (Location × ℕ × S)}
    (hinside : (saturation state).Inside builder.region)
    (hacc : Acc (fun after before => Saturation.Step builder.derive before after) (saturation state)) :
    ∃ fuel results, builder.summarize_loop fuel state = some results := by
  generalize hview : saturation state = view at hacc
  induction hacc generalizing state with
  | intro view _ ih =>
    subst hview
    obtain ⟨results, worklist⟩ := state
    cases worklist with
    | nil => exact ⟨0, results, rfl⟩
    | cons entry worklist =>
      obtain ⟨next, hnext, hstep⟩ := step_of_summarize_step hinside (List.Perm.refl _)
      obtain ⟨fuel, final, hfinal⟩ := ih _ hstep
        (hinside.step derive_mem_region_keys region_keys_subset hstep) rfl
      refine ⟨fuel + 1, final, ?_⟩
      unfold summarize_loop
      rw [hnext]
      exact hfinal

/-- On every graph the worklist loop ends, whatever cycles it has: summaries of unsigned
    integers and nested products of them cannot keep being novel. -/
theorem summarize_outputs_terminates [WellQuasiOrderedLE S] (builder : Builder S) :
    ∃ fuel results, builder.summarize_outputs fuel = some results :=
  exists_summarize_loop builder.inside_start
    (builder.inside_start.acc derive_mem_region_keys region_keys_subset)

/-- Where each target has one source, the loop returns the minimal compositions along the
    paths from each location to each scope output, in whatever order it takes its entries. -/
theorem summarize_outputs_exact [WellQuasiOrderedLE S] [MonotoneComposition S T]
    {builder : Builder S} (hsource : builder.OneSource) :
    (∃ fuel results, builder.summarize_outputs fuel = some results ∧
      builder.Summarizes builder.summarize_start results) ∧
    ∀ results, builder.Summarizes builder.summarize_start results →
      ∀ location output, location ≠ Location.new_target 0 output →
        (antichain_at results location output).elements.Nodup ∧
        ∀ summary, summary ∈ (antichain_at results location output).elements ↔
          Minimal (builder.Composed output location) summary := by
  constructor
  · obtain ⟨fuel, results, hresults⟩ := exists_summarize_loop builder.inside_start
      (builder.inside_start.acc derive_mem_region_keys region_keys_subset)
    exact ⟨fuel, results, hresults, summarizes_of_summarize_loop hresults⟩
  · intro results hresults location output hlocation
    have hfrontier := (hresults.isFrontier builder.inside_start builder.saturating_start location
      output).congr (follows_iff_composed hsource hlocation)
    exact ⟨hfrontier.nodup, hfrontier.mem_iff⟩

/-! ### An example -/

/-- A scope with one input and one output, and a node between them whose loop increments the
    inner coordinate. -/
def nested_graph : Option (Builder (Product (Unsigned 64) ℕ)) := do
  let builder ← Builder.new.add_node 0 1 1 [[Antichain.new]]
  let builder ← builder.add_node 1 2 1 [[Antichain.from_elem ⟨0, 0⟩], [Antichain.from_elem ⟨0, 1⟩]]
  let builder ← builder.add_edge ⟨0, 0⟩ ⟨1, 0⟩
  let builder ← builder.add_edge ⟨1, 0⟩ ⟨1, 1⟩
  builder.add_edge ⟨1, 0⟩ ⟨0, 0⟩

def nested_builder : Builder (Product (Unsigned 64) ℕ) := nested_graph.get (by decide)

theorem summarize_outputs_terminates_example :
    ∃ fuel results, nested_builder.summarize_outputs fuel = some results :=
  summarize_outputs_terminates nested_builder

theorem nested_one_source : nested_builder.OneSource := by
  intro node port node' port' targets targets' target htargets htarget htargets' htarget'
  have hunique : ∀ first ∈ nested_builder.reversed, ∀ second ∈ nested_builder.reversed,
      first.1 = second.1 → first.2 = second.2 := by decide
  have hsame := hunique _ (mem_reversed.mpr ⟨_, _, _, _, htargets, htarget, rfl⟩)
    _ (mem_reversed.mpr ⟨_, _, _, _, htargets', htarget', rfl⟩) rfl
  injection hsame with hnode hport
  injection hport with hport
  exact ⟨hnode, hport⟩

theorem nested_summarizes : (nested_builder.summarize_outputs 20).isSome := by decide

/-- The loop never improves on the direct path from the input of the scope to its output. -/
theorem summarize_outputs_exact_example :
    {summary | Minimal (nested_builder.Composed 0 (Location.new_source 0 0)) summary} =
      {⟨0, 0⟩} := by
  have hfound : (antichain_at ((nested_builder.summarize_outputs 20).get nested_summarizes)
      (Location.new_source 0 0) 0).elements = [⟨0, 0⟩] := by decide
  have hruns := summarizes_of_summarize_loop (Option.some_get nested_summarizes).symm
  have hexact := (summarize_outputs_exact nested_one_source).2 _ hruns (Location.new_source 0 0) 0
    (by decide)
  ext summary
  rw [Set.mem_ofPred_eq, ← hexact.2, hfound, List.mem_singleton, Set.mem_singleton_iff]

end Builder

end Timely
