/-
  Timely/Wiring.lean
  ==================
  **How a scope is wired.**

  Children, ports, ghosts and wrappers refer to each other by numbers.  What the
  numbers refer to is laid out when a subgraph is built, and stays: batches are
  drained and filled, but there are as many of them as before.  `Wired` says
  that all numbers refer to something, and this module follows them through what
  is done to a single child.
-/
import Timely.Subgraph
import Timely.TrackerIndices

set_option linter.unusedSectionVars false

namespace Timely

open Library

/-! ### Layouts -/

/-- How many batches are shared between parent and child. -/
@[ext] structure SharedPorts where
  frontiers : ℕ
  consumeds : ℕ
  internals : ℕ
  produceds : ℕ
  wrapper_frontiers : ℕ → Option ℕ
  wrapper_consumeds : ℕ → Option ℕ
  wrapper_internals : ℕ → Option ℕ
  wrapper_produceds : ℕ → Option ℕ

/-- The number of batches of each ghost. -/
def batch_counts {T : Type} [Ord T] (batches : AList fun _ : ℕ => List (ChangeBatch T)) (ghost : ℕ) :
    Option ℕ :=
  (batches.lookup ghost).map List.length

def SharedProgress.ports {T : Type} [Ord T] (progress : SharedProgress T) : SharedPorts where
  frontiers := progress.frontiers.length
  consumeds := progress.consumeds.length
  internals := progress.internals.length
  produceds := progress.produceds.length
  wrapper_frontiers := batch_counts progress.wrapper_frontiers
  wrapper_consumeds := batch_counts progress.wrapper_consumeds
  wrapper_internals := batch_counts progress.wrapper_internals
  wrapper_produceds := batch_counts progress.wrapper_produceds

/-- The numbers that a child refers to others by, and is referred to. -/
structure Wiring where
  index : ℕ
  edges : List (List Target)
  ghost_edges : List (List Target)
  ports : SharedPorts

def PerOperatorState.wiring {O S T : Type} [Ord T] (child : PerOperatorState O S T) : Wiring where
  index := child.index
  edges := child.edges
  ghost_edges := child.ghost_edges
  ports := child.shared_progress.ports

/-- What is laid out when a subgraph is built. -/
structure Layout where
  children : List Wiring
  incomplete : ℕ
  input_messages : ℕ
  output_capabilities : ℕ
  shared_progress : SharedPorts
  inputs : ℕ
  outputs : ℕ
  wrapper_ghost : AList fun _ : ℕ => List ℕ
  ghost_wrapper : AList fun _ : ℕ => ℕ
  wrapper_ghost_edges : AList fun _ : ℕ => List (ℕ × ℕ)

def Subgraph.layout {O S TOuter TInner : Type} [Ord TOuter] [Ord TInner]
    (subgraph : Subgraph O S TOuter TInner) : Layout where
  children := subgraph.children.map PerOperatorState.wiring
  incomplete := subgraph.incomplete.length
  input_messages := subgraph.input_messages.length
  output_capabilities := subgraph.output_capabilities.length
  shared_progress := subgraph.shared_progress.ports
  inputs := subgraph.inputs
  outputs := subgraph.outputs
  wrapper_ghost := subgraph.wrapper_ghost
  ghost_wrapper := subgraph.ghost_wrapper
  wrapper_ghost_edges := subgraph.wrapper_ghost_edges

/-! ### Layouts that refer to something -/

namespace Builder

variable {S : Type}

/-- The first `count` inputs of a node exist. -/
def HasTargets (topology : Builder S) (node count : ℕ) : Prop :=
  ∀ port < count, topology.has_location (Location.new_target node port) = true

/-- The first `count` outputs of a node exist. -/
def HasSources (topology : Builder S) (node count : ℕ) : Prop :=
  ∀ port < count, topology.has_location (Location.new_source node port) = true

theorem has_target_iff {topology : Builder S} {node port : ℕ} {ports : ℕ × ℕ}
    (h : topology.shape[node]? = some ports) :
    topology.has_location (Location.new_target node port) = true ↔ port < ports.1 := by
  unfold has_location Location.new_target
  rw [h]
  exact decide_eq_true_iff

theorem has_source_iff {topology : Builder S} {node port : ℕ} {ports : ℕ × ℕ}
    (h : topology.shape[node]? = some ports) :
    topology.has_location (Location.new_source node port) = true ↔ port < ports.2 := by
  unfold has_location Location.new_source
  rw [h]
  exact decide_eq_true_iff

theorem node_lt_of_has_location {topology : Builder S} {location : Location}
    (h : topology.has_location location = true) : location.node < topology.shape.length := by
  unfold has_location at h
  split at h
  case h_1 => cases h
  case h_2 ports hports => exact (List.getElem?_eq_some_iff.mp hports).1

end Builder

/-- What a wrapper shares for a ghost is at ports of the ghost. -/
structure WiredGhost {S : Type} (topology : Builder S) (ports : SharedPorts) (ghost : ℕ) : Prop where
  consumeds : ∃ count, ports.wrapper_consumeds ghost = some count ∧ topology.HasTargets ghost count
  internals : ∃ count, ports.wrapper_internals ghost = some count ∧ topology.HasSources ghost count
  produceds : ∃ count, ports.wrapper_produceds ghost = some count

/-- What a child that the tracker knows shares is at its ports, and has edges. -/
structure WiredPorts {S : Type} (topology : Builder S) (index : ℕ) (child : Wiring) : Prop where
  consumeds : topology.HasTargets index child.ports.consumeds
  internals : topology.HasSources index child.ports.internals
  produceds : topology.HasSources index child.ports.produceds
  edges : child.ports.produceds ≤ child.edges.length
  ghost_edges : child.ports.produceds ≤ child.ghost_edges.length

/-- All numbers that a child refers to others by refer to something. -/
structure WiredChild {S : Type} (topology : Builder S) (layout : Layout) (index : ℕ) (child : Wiring) :
    Prop where
  index_eq : child.index = index
  edges : ∀ targets ∈ child.edges, ∀ target ∈ targets, target.node < layout.children.length
  ghost_edges : ∀ targets ∈ child.ghost_edges, ∀ target ∈ targets,
    topology.has_location (Location.from_target target) = true
  frontiers : ∀ port, topology.has_location (Location.new_target index port) = true →
    port < child.ports.frontiers
  ports : index ∉ layout.wrapper_ghost → WiredPorts topology index child
  ghosts : ∀ ghosts, layout.wrapper_ghost.lookup index = some ghosts →
    ∀ ghost ∈ ghosts, WiredGhost topology child.ports ghost
  wraps : index ∈ layout.wrapper_ghost → ∃ ghost, (child.ports.wrapper_internals ghost).isSome

/-- The edges of a wrapper's ghosts lead to inputs. -/
structure WiredEdges {S : Type} (topology : Builder S) (wrapper_ghost : AList fun _ : ℕ => List ℕ)
    (wrapper_ghost_edges : AList fun _ : ℕ => List (ℕ × ℕ)) : Prop where
  registered : ∀ wrapper ∈ wrapper_ghost, wrapper ∈ wrapper_ghost_edges
  targets : ∀ wrapper ∈ wrapper_ghost, ∀ edges, wrapper_ghost_edges.lookup wrapper = some edges →
    ∀ edge ∈ edges, topology.has_location (Location.new_target edge.2 0) = true

/-- All numbers of a layout refer to something. -/
structure Wired {S : Type} (topology : Builder S) (layout : Layout) : Prop where
  seven : 7 ≤ layout.children.length
  nodes : topology.shape.length = layout.children.length
  scope : topology.shape[0]? = some (layout.outputs, layout.inputs)
  incomplete : layout.incomplete = layout.children.length
  input_messages : layout.input_messages = layout.inputs
  output_capabilities : layout.output_capabilities = layout.outputs
  frontiers : layout.shared_progress.frontiers = layout.inputs
  consumeds : layout.shared_progress.consumeds = layout.inputs
  internals : layout.shared_progress.internals = layout.outputs
  produceds : layout.shared_progress.produceds = layout.outputs
  outer : ∀ child, layout.children[0]? = some child → layout.inputs ≤ child.ghost_edges.length
  child : ∀ (index : ℕ) (child : Wiring), layout.children[index]? = some child →
    WiredChild topology layout index child
  ghosts : WiredEdges topology layout.wrapper_ghost layout.wrapper_ghost_edges
  wrapped : ∀ ghost wrapper, layout.ghost_wrapper.lookup ghost = some wrapper →
    ∃ child : Wiring, layout.children[wrapper]? = some child ∧
      ∃ count, child.ports.wrapper_frontiers ghost = some count ∧
        ∀ port, topology.has_location (Location.new_target ghost port) = true → port < count

/-! ### Draining -/

section Children

variable {O S T : Type} [PartialOrder T] [DecidableLE T] [DecidableEq T] [Ord T] [LinearExtension T]

/-- A child that reports nothing of its own. -/
structure SharedProgress.Silent (progress : SharedProgress T) : Prop where
  consumeds : ∀ batch ∈ progress.consumeds, batch.updates = []
  internals : ∀ batch ∈ progress.internals, batch.updates = []
  produceds : ∀ batch ∈ progress.produceds, batch.updates = []

theorem drain_eq_nil {batch : ChangeBatch T} (h : batch.updates = []) : batch.drain.1 = [] := by
  apply List.eq_nil_iff_forall_not_mem.mpr
  intro update hupdate
  obtain ⟨source, hsource, _⟩ := ChangeBatch.exists_key_of_mem_compact hupdate
  rw [h] at hsource
  exact List.not_mem_nil hsource

theorem length_drained (batches : List (ChangeBatch T)) : (drained batches).length = batches.length :=
  List.length_map _

theorem updates_of_mem_drained {batches : List (ChangeBatch T)} {batch : ChangeBatch T}
    (h : batch ∈ drained batches) : batch.updates = [] := by
  obtain ⟨_, _, rfl⟩ := List.mem_map.mp h
  rfl

theorem batch_counts_insert {batches : AList fun _ : ℕ => List (ChangeBatch T)} {ghost : ℕ}
    {before after : List (ChangeBatch T)} (hbefore : batches.lookup ghost = some before)
    (hlength : after.length = before.length) :
    batch_counts (batches.insert ghost after) = batch_counts batches := by
  funext other
  unfold batch_counts
  by_cases hother : other = ghost
  · subst hother
    rw [AList.lookup_insert, hbefore, Option.map_some, Option.map_some, hlength]
  · rw [AList.lookup_insert_ne hother]

/-- Draining batches goes through if acting on each of their changes does. -/
theorem exists_drain_all {σ : Type} {P : σ → Prop} (batches : List (ChangeBatch T))
    (act : ℕ → T × ℤ → σ → Option σ) {start : σ} (hstart : P start)
    (hact : ∀ {index : ℕ} {batch : ChangeBatch T} {change : T × ℤ} {state : σ},
      batches[index]? = some batch → change ∈ batch.drain.1 → P state →
        ∃ after, act index change state = some after ∧ P after) :
    ∃ last, drain_all batches act start = some last ∧ P last := by
  refine exists_foldlM hstart ?_
  rintro before ⟨index, change⟩ hmem hbefore
  obtain ⟨⟨batch, position⟩, hbatch, hchange⟩ := List.mem_flatMap.mp hmem
  obtain ⟨_, hdrained, heq⟩ := List.mem_map.mp hchange
  obtain ⟨rfl, rfl⟩ := Prod.mk.inj heq
  exact hact (List.mem_zipIdx_iff_getElem?.mp hbatch) hdrained hbefore

/-! ### Extracting -/

/-- Pointstamp changes at locations of the graph, and activations of children. -/
structure InGraph (topology : Builder S) (extraction : Extraction T) : Prop where
  keys : extraction.1.KeysIn topology.HasKey
  active : ∀ index ∈ extraction.2, index < topology.shape.length

theorem active_activate {temp_active : List ℕ} {index bound : ℕ}
    (h : ∀ other ∈ temp_active, other < bound) (hindex : index < bound) :
    ∀ other ∈ activate temp_active index, other < bound := by
  intro other hother
  rcases mem_activate.mp hother with rfl | hmem
  · exact hindex
  · exact h other hmem

variable {topology : Builder S}

theorem InGraph.consumed {extraction : Extraction T} (h : InGraph topology extraction)
    {node input : ℕ} (hlocation : topology.has_location (Location.new_target node input) = true)
    (change : T × ℤ) :
    ∃ after, extract_consumed node input change extraction = some after ∧ InGraph topology after :=
  ⟨_, rfl, h.keys.update _ _ hlocation, h.active⟩

theorem InGraph.internal {extraction : Extraction T} (h : InGraph topology extraction)
    {node output : ℕ} (hlocation : topology.has_location (Location.new_source node output) = true)
    (change : T × ℤ) :
    ∃ after, extract_internal node output change extraction = some after ∧ InGraph topology after :=
  ⟨_, rfl, h.keys.update _ _ hlocation, h.active⟩

theorem InGraph.produced {extraction : Extraction T} (h : InGraph topology extraction)
    {edges ghost_edges : List (List Target)} {output : ℕ} (houtput : output < edges.length)
    (hghost : output < ghost_edges.length)
    (hedges : ∀ targets ∈ edges, ∀ target ∈ targets, target.node < topology.shape.length)
    (hghosts : ∀ targets ∈ ghost_edges, ∀ target ∈ targets,
      topology.has_location (Location.from_target target) = true) (change : T × ℤ) :
    ∃ after, extract_produced edges ghost_edges output change extraction = some after ∧
      InGraph topology after := by
  unfold extract_produced
  rw [List.getElem?_eq_getElem houtput, List.getElem?_eq_getElem hghost]
  refine ⟨_, rfl, ?_, ?_⟩
  · have hfold := h.keys.foldl_update ((ghost_edges[output]).map fun target =>
      ((Location.from_target target, change.1), change.2)) (by
        intro update hupdate
        obtain ⟨target, htarget, rfl⟩ := List.mem_map.mp hupdate
        exact hghosts _ (List.getElem_mem hghost) target htarget)
    rwa [List.foldl_map] at hfold
  · have htargets := hedges _ (List.getElem_mem houtput)
    generalize edges[output] = targets at htargets
    change ∀ index ∈ targets.foldl (fun active target => activate active target.node) extraction.2, _
    have hactive := h.active
    generalize extraction.2 = active at hactive
    induction targets generalizing active with
    | nil => exact hactive
    | cons target targets ih =>
      exact ih (fun other hother => htargets other (List.mem_cons_of_mem _ hother)) _
        (active_activate hactive (htargets target List.mem_cons_self))

theorem InGraph.ghost_produced {extraction : Extraction T} (h : InGraph topology extraction)
    {wrapper_edges : List (ℕ × ℕ)} (hedges : ∀ edge ∈ wrapper_edges,
      topology.has_location (Location.new_target edge.2 0) = true) (ghost output : ℕ) (change : T × ℤ) :
    ∃ after, extract_ghost_produced wrapper_edges ghost output change extraction = some after ∧
      InGraph topology after := by
  refine ⟨_, rfl, ?_⟩
  have hfilter : ∀ edge ∈ wrapper_edges.filter fun edge => edge.1 = ghost,
      topology.has_location (Location.new_target edge.2 0) = true :=
    fun edge hedge => hedges edge (List.mem_filter.mp hedge).1
  generalize wrapper_edges.filter (fun edge => edge.1 = ghost) = edges at hfilter
  induction edges generalizing extraction with
  | nil => exact h
  | cons edge edges ih =>
    have hlocation := hfilter edge List.mem_cons_self
    exact ih ⟨h.keys.update _ _ hlocation,
      active_activate h.active (Builder.node_lt_of_has_location hlocation)⟩
      fun other hother => hfilter other (List.mem_cons_of_mem _ hother)

/-- What is not about ghosts is the same. -/
structure SameOwn (before after : SharedProgress T) : Prop where
  ports : after.ports = before.ports
  consumeds : after.consumeds = before.consumeds
  internals : after.internals = before.internals
  produceds : after.produceds = before.produceds

/-- What a wrapper shares for one of its ghosts is extracted. -/
theorem InGraph.ghost {progress : SharedProgress T} {extraction : Extraction T}
    (h : InGraph topology extraction) {wrapper_edges : List (ℕ × ℕ)} (hedges : ∀ edge ∈ wrapper_edges,
      topology.has_location (Location.new_target edge.2 0) = true) {ghost : ℕ}
    (hghost : WiredGhost topology progress.ports ghost) :
    ∃ after, extract_ghost wrapper_edges (progress, extraction) ghost = some after ∧
      SameOwn progress after.1 ∧ InGraph topology after.2 := by
  obtain ⟨_, hcount, hconsumeds⟩ := hghost.consumeds
  obtain ⟨consumeds, hconsumedsAt, rfl⟩ := Option.map_eq_some_iff.mp hcount
  obtain ⟨_, hcount, hinternals⟩ := hghost.internals
  obtain ⟨internals, hinternalsAt, rfl⟩ := Option.map_eq_some_iff.mp hcount
  obtain ⟨_, hcount⟩ := hghost.produceds
  obtain ⟨produceds, hproducedsAt, rfl⟩ := Option.map_eq_some_iff.mp hcount
  obtain ⟨first, hfirst, hfirstIn⟩ := exists_drain_all consumeds (extract_consumed ghost) h
    fun hbatch _ hstate => hstate.consumed (hconsumeds _ (List.getElem?_eq_some_iff.mp hbatch).1) _
  obtain ⟨second, hsecond, hsecondIn⟩ := exists_drain_all internals (extract_internal ghost)
    hfirstIn fun hbatch _ hstate =>
      hstate.internal (hinternals _ (List.getElem?_eq_some_iff.mp hbatch).1) _
  obtain ⟨third, hthird, hthirdIn⟩ := exists_drain_all produceds
    (extract_ghost_produced wrapper_edges ghost) hsecondIn
    fun _ _ hstate => hstate.ghost_produced hedges ghost _ _
  unfold extract_ghost
  simp only [hconsumedsAt, hinternalsAt, hproducedsAt, hfirst, Option.bind_some, hsecond, hthird,
    Option.map_some]
  refine ⟨_, rfl, ⟨?_, rfl, rfl, rfl⟩, hthirdIn⟩
  apply SharedPorts.ext
  all_goals first
    | rfl
    | exact batch_counts_insert ‹_› (length_drained _)

theorem SameOwn.refl (progress : SharedProgress T) : SameOwn progress progress := ⟨rfl, rfl, rfl, rfl⟩

theorem SameOwn.trans {first second third : SharedProgress T} (h : SameOwn first second)
    (h' : SameOwn second third) : SameOwn first third :=
  ⟨h'.ports.trans h.ports, h'.consumeds.trans h.consumeds, h'.internals.trans h.internals,
    h'.produceds.trans h.produceds⟩

theorem SameOwn.silent {before after : SharedProgress T} (h : SameOwn before after)
    (hsilent : before.Silent) : after.Silent := by
  refine ⟨?_, ?_, ?_⟩
  · rw [h.consumeds]
    exact hsilent.consumeds
  · rw [h.internals]
    exact hsilent.internals
  · rw [h.produceds]
    exact hsilent.produceds

/-- What a wrapper shares for its ghosts is extracted, and nothing for any other child. -/
theorem InGraph.wrapper {progress : SharedProgress T} {extraction : Extraction T}
    (h : InGraph topology extraction) {index : ℕ} {wrapper_ghost : AList fun _ : ℕ => List ℕ}
    {wrapper_ghost_edges : AList fun _ : ℕ => List (ℕ × ℕ)}
    (hedges : WiredEdges topology wrapper_ghost wrapper_ghost_edges)
    (hghosts : ∀ ghosts, wrapper_ghost.lookup index = some ghosts →
      ∀ ghost ∈ ghosts, WiredGhost topology progress.ports ghost) :
    ∃ after, extract_wrapper index wrapper_ghost wrapper_ghost_edges (progress, extraction) = some after ∧
      SameOwn progress after.1 ∧ InGraph topology after.2 := by
  unfold extract_wrapper
  cases hlookup : wrapper_ghost.lookup index with
  | none => exact ⟨_, rfl, SameOwn.refl progress, h⟩
  | some ghosts =>
    have hwrapper : index ∈ wrapper_ghost := AList.lookup_isSome.mp (Option.isSome_of_eq_some hlookup)
    obtain ⟨edges, hlookupEdges⟩ := Option.isSome_iff_exists.mp
      (AList.lookup_isSome.mpr (hedges.registered index hwrapper))
    simp only [hlookupEdges]
    refine exists_foldlM (P := fun state : SharedProgress T × Extraction T =>
      SameOwn progress state.1 ∧ InGraph topology state.2) ⟨SameOwn.refl progress, h⟩ ?_
    rintro ⟨before, extraction⟩ ghost hmem ⟨hsame, hbefore⟩
    have hwired : WiredGhost topology before.ports ghost := by
      rw [hsame.ports]
      exact hghosts ghosts hlookup ghost hmem
    obtain ⟨after, hafter, hown, hin⟩ :=
      hbefore.ghost (hedges.targets index hwrapper edges hlookupEdges) hwired
    exact ⟨after, hafter, hsame.trans hown, hin⟩

/-- Extracting the progress of a child goes through.  It leaves the child with nothing of its own
    to report. -/
theorem exists_extract_progress {layout : Layout} {index : ℕ} {child : PerOperatorState O S T}
    {extraction : Extraction T} (hedges : WiredEdges topology layout.wrapper_ghost layout.wrapper_ghost_edges)
    (hnodes : topology.shape.length = layout.children.length)
    (hchild : WiredChild topology layout index child.wiring)
    (hsilent : index ∈ layout.wrapper_ghost → child.shared_progress.Silent)
    (h : InGraph topology extraction) :
    ∃ outcome, child.extract_progress layout.wrapper_ghost layout.wrapper_ghost_edges extraction =
        some outcome ∧
      outcome.1.wiring = child.wiring ∧ outcome.1.shared_progress.Silent ∧ InGraph topology outcome.2 := by
  have hindex : child.index = index := hchild.index_eq
  have hghosts : ∀ ghosts, layout.wrapper_ghost.lookup child.index = some ghosts →
      ∀ ghost ∈ ghosts, WiredGhost topology child.shared_progress.ports ghost := by
    rw [hindex]
    exact hchild.ghosts
  obtain ⟨wrapped, hwrapped, hown, hwrappedIn⟩ := h.wrapper hedges hghosts
  -- a batch of a wrapper has no changes, and the batch of another child is at one of its ports
  obtain ⟨first, hfirst, hfirstIn⟩ := exists_drain_all wrapped.1.consumeds (extract_consumed child.index)
    hwrappedIn (by
      intro input batch change state hbatch hchange hstate
      rw [hown.consumeds] at hbatch
      refine hstate.consumed ?_ change
      by_cases hwrapper : index ∈ layout.wrapper_ghost
      · rw [drain_eq_nil ((hsilent hwrapper).consumeds batch (List.mem_of_getElem? hbatch))] at hchange
        exact absurd hchange List.not_mem_nil
      · rw [hindex]
        exact (hchild.ports hwrapper).consumeds input (List.getElem?_eq_some_iff.mp hbatch).1)
  obtain ⟨second, hsecond, hsecondIn⟩ := exists_drain_all wrapped.1.internals
    (extract_internal child.index) hfirstIn (by
      intro output batch change state hbatch hchange hstate
      rw [hown.internals] at hbatch
      refine hstate.internal ?_ change
      by_cases hwrapper : index ∈ layout.wrapper_ghost
      · rw [drain_eq_nil ((hsilent hwrapper).internals batch (List.mem_of_getElem? hbatch))] at hchange
        exact absurd hchange List.not_mem_nil
      · rw [hindex]
        exact (hchild.ports hwrapper).internals output (List.getElem?_eq_some_iff.mp hbatch).1)
  obtain ⟨third, hthird, hthirdIn⟩ := exists_drain_all wrapped.1.produceds
    (extract_produced child.edges child.ghost_edges) hsecondIn (by
      intro output batch change state hbatch hchange hstate
      rw [hown.produceds] at hbatch
      have hlength : output < child.wiring.ports.produceds := (List.getElem?_eq_some_iff.mp hbatch).1
      by_cases hwrapper : index ∈ layout.wrapper_ghost
      · rw [drain_eq_nil ((hsilent hwrapper).produceds batch (List.mem_of_getElem? hbatch))] at hchange
        exact absurd hchange List.not_mem_nil
      · have hports := hchild.ports hwrapper
        refine hstate.produced (hlength.trans_le hports.edges) (hlength.trans_le hports.ghost_edges)
          ?_ hchild.ghost_edges change
        rw [hnodes]
        exact hchild.edges)
  unfold PerOperatorState.extract_progress
  simp only [hwrapped, Option.bind_some, hfirst, hsecond, hthird, Option.map_some]
  refine ⟨_, rfl, ?_, ⟨fun _ => updates_of_mem_drained, fun _ => updates_of_mem_drained,
    fun _ => updates_of_mem_drained⟩, hthirdIn⟩
  have hports : SharedProgress.ports { wrapped.1 with
      consumeds := drained wrapped.1.consumeds
      internals := drained wrapped.1.internals
      produceds := drained wrapped.1.produceds } = wrapped.1.ports := by
    simp only [SharedProgress.ports, length_drained]
  unfold PerOperatorState.wiring
  simp only [hports, hown.ports]

/-! ### Scheduling -/

/-- What an operator may do to what it shares: it leaves as many batches as there were, and one that
    stands for ghosts reports for them only. -/
structure Respects (before after : SharedProgress T) : Prop where
  ports : after.ports = before.ports
  own : (∃ ghost, (before.ports.wrapper_internals ghost).isSome) → SameOwn before after

/-- Operators that keep to their ports. -/
structure Operate.Orderly (O T : Type) [Ord T] [Operate O T] : Prop where
  schedule : ∀ {operator : O} {progress : SharedProgress T} {outcome : Bool × O × SharedProgress T},
    Operate.schedule operator progress = some outcome → Respects progress outcome.2.2
  set_external_summary : ∀ {operator : O} {progress : SharedProgress T} {outcome : O × SharedProgress T},
    Operate.set_external_summary operator progress = some outcome → Respects progress outcome.2

theorem respects_of_schedule [Operate O T] (horderly : Operate.Orderly O T)
    {child scheduled : PerOperatorState O S T} {flag : Bool}
    (h : child.schedule = some (flag, scheduled)) :
    Respects child.shared_progress scheduled.shared_progress ∧ scheduled.wiring = child.wiring := by
  unfold PerOperatorState.schedule at h
  split at h
  · obtain ⟨outcome, houtcome, heq⟩ := Option.map_eq_some_iff.mp h
    obtain ⟨-, rfl⟩ := Prod.mk.inj heq
    have hrespects := horderly.schedule houtcome
    refine ⟨hrespects, ?_⟩
    unfold PerOperatorState.wiring
    simp only [hrespects.ports]
  · split at h
    · cases h
    · -- a closed operator: its frontiers are looked at
      cases h
      have hports : SharedProgress.ports { child.shared_progress with
          frontiers := child.shared_progress.frontiers.map fun changes => changes.is_empty.2 } =
          child.shared_progress.ports := by
        simp only [SharedProgress.ports, List.length_map]
      refine ⟨⟨hports, fun _ => ⟨hports, rfl, rfl, rfl⟩⟩, ?_⟩
      unfold PerOperatorState.wiring
      simp only [hports]

/-! ### Checking statements -/

theorem lt_length_sources {tracker : Tracker S T} {index output : ℕ} {child_state : PerOperator S T}
    (hstate : tracker.per_operator[index]? = some child_state)
    (hlocation : tracker.builder.has_location (Location.new_source index output) = true) :
    output < child_state.sources.length := by
  have hshape : tracker.builder.shape[index]? = some child_state.shape := by
    rw [← tracker.shape_eq, List.getElem?_map, hstate, Option.map_some]
  unfold Builder.has_location Location.new_source at hlocation
  simpa [hshape, PerOperator.shape] using hlocation

/-- The check fails for statements that are not supported, not for want of a port. -/
theorem exists_not_supported {child : PerOperatorState O S T} {child_state : PerOperator S T}
    (hsources : ∀ (output : ℕ) (batch : ChangeBatch T),
      child.shared_progress.internals[output]? = some batch ∨
        child.shared_progress.produceds[output]? = some batch → batch.updates ≠ [] →
      output < child_state.sources.length)
    (h : child.validate_progress child_state = none) :
    ∃ output time, child.supported child_state output time = some false := by
  by_contra hall
  push Not at hall
  have hthrough : ∃ last, child.validate_progress child_state = some last ∧ True := by
    refine exists_foldlM trivial ?_
    rintro - ⟨batch, output⟩ hmem -
    obtain ⟨last, hlast, -⟩ : ∃ last, child.validate_changes child_state (batch, output) = some last ∧
        True := by
      refine exists_foldlM trivial ?_
      rintro - ⟨time, delta⟩ hchange -
      by_cases hpositive : 0 < delta
      · have hlength : output < child_state.sources.length := by
          refine hsources output batch ?_ ?_
          · rcases List.mem_append.mp hmem with hinternal | hproduced
            · exact Or.inl (List.mem_zipIdx_iff_getElem?.mp hinternal)
            · exact Or.inr (List.mem_zipIdx_iff_getElem?.mp hproduced)
          · intro hnil
            have hdrain : batch.compact.updates = [] := drain_eq_nil hnil
            rw [hdrain] at hchange
            exact List.not_mem_nil hchange
        have hsupported : child.supported child_state output time = some true := by
          have hnot := hall output time
          unfold PerOperatorState.supported at hnot ⊢
          rw [List.getElem?_eq_getElem hlength] at hnot ⊢
          simp only [Option.map_some] at hnot ⊢
          congr 1
          by_contra hfalse
          exact hnot (congrArg some (Bool.eq_false_of_not_eq_true hfalse))
        refine ⟨(), ?_, trivial⟩
        rw [if_pos hpositive]
        simp only [hsupported]
      · exact ⟨(), by rw [if_neg hpositive], trivial⟩
    exact ⟨last, hlast, trivial⟩
  obtain ⟨last, hlast, -⟩ := hthrough
  rw [h] at hlast
  cases hlast

end Children

end Timely
