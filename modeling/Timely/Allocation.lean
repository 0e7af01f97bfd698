/-
  Timely/Allocation.lean
  ======================
  **Freshly allocated trackers.**

  What `Tracker::allocate_from` yields: empty antichains and buffers everywhere,
  summaries to the scope outputs at internal ports only, and, when every edge
  ends at an existing target, no summary beyond the outputs of the scope.
-/
import Timely.Termination

set_option linter.unusedSectionVars false

namespace Timely

open Library

variable {S T : Type} [PartialOrder T] [DecidableLE T] [DecidableEq T] [Ord T] [LinearExtension T]
  [PartialOrder S] [DecidableLE S] [PathSummary S T]

namespace Tracker

/-- The tracker that `allocate_from` yields for a builder. -/
def Allocated (builder : Builder S) (tracker : Tracker S T) : Prop :=
  ∃ fuel summary, allocate_from builder fuel = some (tracker, summary)

/-- A tracker that has seen no updates. -/
structure Fresh (builder : Builder S) (tracker : Tracker S T) : Prop where
  builder_eq : tracker.builder = builder
  pointstamps : ∀ location, tracker.pointstamps_at location = MutableAntichain.new
  implications : ∀ location, tracker.implications_at location = MutableAntichain.new
  summaries : ∀ location, location.node = 0 → tracker.summaries_at location = []
  targets : tracker.target_changes = ChangeBatch.new
  sources : tracker.source_changes = ChangeBatch.new
  worklist : tracker.worklist = Worklist.new
  pushed : tracker.pushed_changes = ChangeBatch.new
  outputs : ∃ scope_outputs scope_inputs, builder.shape[0]? = some (scope_outputs, scope_inputs) ∧
    tracker.output_changes = List.replicate scope_outputs ChangeBatch.new

/-! ### Empty ports -/

theorem port_empty (builder : Builder S) (scope_outputs : ℕ) (location : Location)
    (port : PortInformation S T)
    (h : (empty (T := T) builder scope_outputs).port location = some port) :
    port = PortInformation.new := by
  unfold Tracker.port lookup_port at h
  obtain ⟨operator, hoperator, hport⟩ := Option.bind_eq_some_iff.mp h
  change (builder.shape.map PerOperator.new)[location.node]? = some operator at hoperator
  rw [List.getElem?_map, Option.map_eq_some_iff] at hoperator
  obtain ⟨ports, _, rfl⟩ := hoperator
  unfold PerOperator.port PerOperator.new at hport
  split at hport
  · exact (List.mem_replicate.mp (List.mem_of_getElem? hport)).2
  · exact (List.mem_replicate.mp (List.mem_of_getElem? hport)).2

theorem getD_map_port_empty {β : Type} (builder : Builder S) (scope_outputs : ℕ)
    (location : Location) (view : PortInformation S T → β) :
    (((empty (T := T) builder scope_outputs).port location).map view).getD
      (view PortInformation.new) = view PortInformation.new := by
  cases h : (empty (T := T) builder scope_outputs).port location with
  | none => rfl
  | some port =>
    rw [port_empty builder scope_outputs location port h]
    rfl

theorem fresh_empty {builder : Builder S} {scope_outputs scope_inputs : ℕ}
    (h : builder.shape[0]? = some (scope_outputs, scope_inputs)) :
    Fresh builder (empty (T := T) builder scope_outputs) where
  builder_eq := rfl
  pointstamps location := getD_map_port_empty builder scope_outputs location _
  implications location := getD_map_port_empty builder scope_outputs location _
  summaries location _ := getD_map_port_empty builder scope_outputs location _
  targets := rfl
  sources := rfl
  worklist := rfl
  pushed := rfl
  outputs := ⟨scope_outputs, scope_inputs, h, rfl⟩

/-! ### Storing summaries -/

/-- Storing the summaries of one location changes at most the summaries of an internal port. -/
theorem store_summaries_cases {state after : Tracker S T × List (List (Antichain S))}
    {entry : Location × List (Antichain S)} (h : store_summaries state entry = some after) :
    after.1 = state.1 ∨
      (entry.1.node ≠ 0 ∧ after.1 = state.1.set_summaries entry.1 entry.2) := by
  obtain ⟨⟨node, port⟩, summaries⟩ := entry
  simp only [store_summaries] at h
  by_cases hnode : node = 0
  · rw [if_pos hnode] at h
    cases port with
    | target port =>
      cases h
      exact Or.inl rfl
    | source port =>
      simp only at h
      split at h
      · cases h
        exact Or.inl rfl
      · cases h
  · rw [if_neg hnode] at h
    split at h
    · cases h
      exact Or.inr ⟨hnode, rfl⟩
    · cases h

theorem Fresh.store_summaries {builder : Builder S}
    {state after : Tracker S T × List (List (Antichain S))} {entry : Location × List (Antichain S)}
    (hfresh : Fresh builder state.1) (h : Tracker.store_summaries state entry = some after) :
    Fresh builder after.1 := by
  rcases store_summaries_cases h with heq | ⟨hnode, heq⟩
  · rwa [heq]
  · rw [heq]
    refine ⟨hfresh.builder_eq, ?_, ?_, ?_, hfresh.targets, hfresh.sources, hfresh.worklist,
      hfresh.pushed, hfresh.outputs⟩
    · intro location
      rw [pointstamps_at_set_summaries]
      exact hfresh.pointstamps location
    · intro location
      rw [implications_at_set_summaries]
      exact hfresh.implications location
    · intro location hlocation
      rw [summaries_at_set_summaries, if_neg]
      · exact hfresh.summaries location hlocation
      · rintro ⟨rfl, _⟩
        exact hnode hlocation

theorem Fits.store_summaries {state after : Tracker S T × List (List (Antichain S))}
    {entry : Location × List (Antichain S)} (hfits : state.1.Fits)
    (hentry : entry.2.length ≤ state.1.output_changes.length)
    (h : Tracker.store_summaries state entry = some after) :
    after.1.Fits ∧ after.1.output_changes = state.1.output_changes := by
  rcases store_summaries_cases h with heq | ⟨_, heq⟩
  · rw [heq]
    exact ⟨hfits, rfl⟩
  · rw [heq]
    refine ⟨?_, rfl⟩
    intro location
    rw [summaries_at_set_summaries]
    split
    · exact hentry
    · exact hfits location

/-- An allocated tracker is fresh. -/
theorem Allocated.fresh {builder : Builder S} {tracker : Tracker S T}
    (h : Allocated builder tracker) : Fresh builder tracker := by
  obtain ⟨fuel, summary, h⟩ := h
  unfold allocate_from at h
  split at h
  case h_1 => cases h
  case h_2 scope_outputs scope_inputs hshape =>
    split at h
    case h_1 => cases h
    case h_2 output_summaries _ =>
      exact foldlM_invariant (P := fun state => Fresh builder state.1) (fresh_empty hshape)
        (fun _ hfresh hstore => hfresh.store_summaries hstore) h

theorem mem_output_targets {builder : Builder S} {target : Target}
    (h : target ∈ builder.output_targets) :
    target.node = 0 ∧ ∃ node port targets, builder.targets_of node port = some targets ∧
      target ∈ targets := by
  unfold Builder.output_targets at h
  obtain ⟨hmem, hnode⟩ := List.mem_filter.mp h
  refine ⟨by simpa using hnode, ?_⟩
  obtain ⟨targets, htargets, htarget⟩ := List.mem_flatten.mp hmem
  obtain ⟨outputs, houtputs, htargetsAt⟩ := List.mem_flatten.mp htargets
  obtain ⟨node, hnodeAt⟩ := List.mem_iff_getElem?.mp houtputs
  obtain ⟨port, hportAt⟩ := List.mem_iff_getElem?.mp htargetsAt
  refine ⟨node, port, targets, ?_, htarget⟩
  unfold Builder.targets_of
  rw [hnodeAt, Option.bind_some, hportAt]

/-- Where every edge leads to an existing port the summaries of an allocated tracker lead to
    existing outputs. -/
theorem Allocated.fits_of_targets {builder : Builder S}
    (hexist : ∀ {node port targets target}, builder.targets_of node port = some targets →
      target ∈ targets → builder.has_location (Location.from_target target) = true)
    {tracker : Tracker S T} (h : Allocated builder tracker) : tracker.Fits := by
  obtain ⟨fuel, summary, h⟩ := h
  unfold allocate_from at h
  split at h
  case h_1 => cases h
  case h_2 scope_outputs scope_inputs hshape =>
    split at h
    case h_1 => cases h
    case h_2 output_summaries hsummaries =>
      have htargets : ∀ target ∈ builder.output_targets, target.port < scope_outputs := by
        intro target htarget
        obtain ⟨hnode, node, port, targets, htargets, hmem⟩ := mem_output_targets htarget
        have hlocation := hexist htargets hmem
        unfold Builder.has_location Location.from_target at hlocation
        simpa [hnode, hshape] using hlocation
      have hlength := Builder.length_le_of_summarize_outputs htargets hsummaries
      have hentries : ∀ entry ∈ output_summaries.entries.map fun entry => (entry.1, entry.2),
          entry.2.length ≤ scope_outputs := by
        intro entry hentry
        obtain ⟨pair, hpair, rfl⟩ := List.mem_map.mp hentry
        exact hlength pair.1 pair.2 (AList.mem_lookup_iff.mpr hpair)
      have hempty : (empty (T := T) builder scope_outputs).Fits := by
        intro location
        have hview := getD_map_port_empty (T := T) builder scope_outputs location
          PortInformation.output_summaries
        unfold summaries_at
        change (((empty builder scope_outputs).port location).map _).getD [] = [] at hview
        rw [hview]
        exact Nat.zero_le _
      have hfold := foldlM_invariant
        (P := fun state : Tracker S T × List (List (Antichain S)) =>
          state.1.Fits ∧ state.1.output_changes.length = scope_outputs)
        ⟨hempty, by simp [empty]⟩ (by
          intro before entry after hmem hbefore hstore
          have hnext := hbefore.1.store_summaries (by rw [hbefore.2]; exact hentries entry hmem) hstore
          exact ⟨hnext.1, by rw [hnext.2, hbefore.2]⟩) h
      exact hfold.1

/-- In a ranked graph the summaries of an allocated tracker lead to existing outputs. -/
theorem Allocated.fits [DecidableEq S] {builder : Builder S} {rank : Location → ℕ} {bound : ℕ}
    (hranked : builder.Ranked rank bound) {tracker : Tracker S T} (h : Allocated builder tracker) :
    tracker.Fits :=
  h.fits_of_targets fun htargets htarget =>
    hranked.has_target (Builder.defaultArc_edge htargets htarget)

end Tracker

end Timely
