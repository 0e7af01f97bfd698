/-
  Timely/Projection.lean
  ======================
  **Capabilities projected to the scope outputs.**

  Step 1 of `propagate_all` sends every change of a pointstamp frontier along
  the summaries of its location to each scope output.  What reaches an output is
  the change of `projected`, the frontier pointstamps carried to that output;
  both are compared by their weight, for an arbitrary weight on the times.
-/
import Timely.Exactness

set_option linter.unusedSectionVars false

namespace Timely

open Library

variable {S T : Type} [PartialOrder T] [DecidableLE T] [DecidableEq T] [Ord T] [LinearExtension T]
  [PathSummary S T]

namespace Tracker

/-! ### One frontier change -/

/-- The times at an output that a time leads to through the summaries to that output. -/
def output_times (output_summaries : List (Antichain S)) (output : ℕ) (time : T) : List T :=
  ((output_summaries[output]?.map Antichain.elements).getD []).filterMap fun summary =>
    PathSummary.results_in summary time

/-- The weight of the changes buffered for an output. -/
def output_weight (output_changes : List (ChangeBatch T)) (output : ℕ) (weight : T → ℤ) : ℤ :=
  ((output_changes[output]?).map fun changes => weigh changes.updates weight).getD 0

/-- The total weight of the times at an output that a time leads to. -/
def output_gain (output_summaries : List (Antichain S)) (output : ℕ) (weight : T → ℤ) (time : T) : ℤ :=
  ((output_times output_summaries output time).map weight).sum

theorem weigh_foldl_update (batch : ChangeBatch T) (times : List T) (delta : ℤ) (weight : T → ℤ) :
    weigh (times.foldl (fun kept time => kept.update time delta) batch).updates weight =
      weigh batch.updates weight + delta * (times.map weight).sum := by
  have hsame : ∀ key, tally (times.foldl (fun kept time => kept.update time delta) batch).updates key =
      tally (batch.updates ++ times.map fun time => (time, delta)) key := by
    intro key
    have hfold := ChangeBatch.value_foldl_update batch (times.map fun time => (time, delta)) key
    rw [List.foldl_map] at hfold
    rw [tally_append]
    exact hfold
  rw [weigh_congr hsame, weigh_append]
  congr 1
  induction times with
  | nil => simp
  | cons time times ih =>
    rw [List.map_cons, weigh_cons, ih fun key => ?_, List.map_cons, List.sum_cons, mul_add]
    have hfold := ChangeBatch.value_foldl_update batch (times.map fun time => (time, delta)) key
    rw [List.foldl_map] at hfold
    rw [tally_append]
    exact hfold

theorem output_weight_project_change {change : T × ℤ} {summaries : List (Antichain S)}
    {output_changes projected : List (ChangeBatch T)}
    (h : project_change change summaries output_changes = some projected) (output : ℕ)
    (weight : T → ℤ) :
    output_weight projected output weight = output_weight output_changes output weight +
      change.2 * output_gain summaries output weight change.1 := by
  induction summaries generalizing output_changes projected output with
  | nil => cases output_changes <;> cases h <;> simp [output_gain, output_times]
  | cons summary summaries ih =>
    cases output_changes with
    | nil => cases h
    | cons changes output_changes =>
      rw [project_change, Option.map_eq_some_iff] at h
      obtain ⟨rest, hrest, rfl⟩ := h
      cases output with
      | zero => exact weigh_foldl_update changes _ change.2 weight
      | succ output => exact ih hrest output

theorem output_weight_project_changes {changes : List (T × ℤ)} {summaries : List (Antichain S)}
    {output_changes projected : List (ChangeBatch T)}
    (h : project_changes changes summaries output_changes = some projected) (output : ℕ)
    (weight : T → ℤ) :
    output_weight projected output weight = output_weight output_changes output weight +
      weigh changes (output_gain summaries output weight) := by
  induction changes generalizing output_changes with
  | nil =>
    cases h
    rw [weigh_nil, add_zero]
  | cons change changes ih =>
    unfold project_changes at h
    obtain ⟨middle, hmiddle, hrest⟩ := foldlM_cons_cases h
    rw [ih hrest, output_weight_project_change hmiddle, weigh_cons, add_assoc]

/-! ### The projection of a tracker -/

/-- The total weight that the frontier pointstamps of a tracker have at an output. -/
def projected (tracker : Tracker S T) (output : ℕ) (weight : T → ℤ) : ℤ :=
  contributions tracker.builder.locations.toFinset
    (fun origin => (tracker.pointstamps_at origin).frontier)
    fun origin => output_gain (tracker.summaries_at origin) output weight

theorem pointstamps_frontier_eq_nil {tracker : Tracker S T} {location : Location}
    (h : location ∉ tracker.builder.locations.toFinset) :
    (tracker.pointstamps_at location).frontier = [] := by
  rw [List.mem_toFinset, Builder.mem_locations_iff, ← tracker.port_isSome, Bool.not_eq_true,
    Option.isSome_eq_false_iff, Option.isNone_iff_eq_none] at h
  simp [pointstamps_at, h, MutableAntichain.new]

/-- The projected weight is positive exactly when some frontier pointstamp leads to a time of
    positive weight. -/
theorem projected_pos_iff {tracker : Tracker S T} {output : ℕ} {weight : T → ℤ}
    (hweight : ∀ time, 0 ≤ weight time) :
    0 < tracker.projected output weight ↔
      ∃ origin start time, start ∈ (tracker.pointstamps_at origin).frontier ∧
        time ∈ output_times (tracker.summaries_at origin) output start ∧ 0 < weight time := by
  have hgain : ∀ (summaries : List (Antichain S)) (start : T),
      0 ≤ output_gain summaries output weight start := by
    intro summaries start
    refine List.sum_nonneg fun value hvalue => ?_
    obtain ⟨time, _, rfl⟩ := List.mem_map.mp hvalue
    exact hweight time
  unfold projected
  rw [contributions_pos_iff (fun origin start => hgain _ start)
    fun _ h => pointstamps_frontier_eq_nil h]
  constructor
  · rintro ⟨origin, start, hstart, hpos⟩
    by_contra hno
    push Not at hno
    refine absurd hpos (not_lt_of_ge (le_of_eq (List.sum_eq_zero fun value hvalue => ?_)))
    obtain ⟨time, htime, rfl⟩ := List.mem_map.mp hvalue
    exact le_antisymm (hno origin start time hstart htime) (hweight time)
  · rintro ⟨origin, start, time, hstart, htime, hpos⟩
    refine ⟨origin, start, hstart, lt_of_lt_of_le hpos ?_⟩
    refine List.single_le_sum (fun value hvalue => ?_) _ (List.mem_map_of_mem htime)
    obtain ⟨other, _, rfl⟩ := List.mem_map.mp hvalue
    exact hweight other

/-- An applied update buffers at each output what it changes of the projection. -/
theorem Applied.output_weight {tracker after : Tracker S T} {location : Location} {update : T × ℤ}
    {changes : List (T × ℤ)} (hsettled : tracker.Settled)
    (h : Applied tracker location update changes after) (output : ℕ) (weight : T → ℤ) :
    Tracker.output_weight after.output_changes output weight - after.projected output weight =
      Tracker.output_weight tracker.output_changes output weight -
        tracker.projected output weight := by
  have hmem : location ∈ tracker.builder.locations.toFinset :=
    List.mem_toFinset.mpr ((Builder.mem_locations_iff _ _).mpr h.exists_port)
  have hprojected : after.projected output weight = tracker.projected output weight +
      weigh changes (output_gain (tracker.summaries_at location) output weight) := by
    unfold projected
    simp only [h.builder, h.summaries]
    refine contributions_change (fun hnone => absurd hmem hnone) ?_
      (hsettled.pointstamps _).frontier.nodup h.updated.settled.frontier.nodup h.updated.report
    intro other hne
    rw [h.pointstamps other hne]
  rw [output_weight_project_changes h.outputs, hprojected]
  ring

/-- A whole call buffers at each output the change of the projection. -/
theorem Propagates.output_weight {tracker after : Tracker S T} (hbalanced : tracker.Balanced)
    (h : tracker.Propagates after) (output : ℕ) (weight : T → ℤ) :
    Tracker.output_weight after.output_changes output weight - after.projected output weight =
      Tracker.output_weight tracker.output_changes output weight -
        tracker.projected output weight := by
  obtain ⟨middle, loaded, hphases⟩ := propagates_iff.mp h
  have hlinked := hphases.linked hbalanced
  let kept := fun state : Tracker S T =>
    Tracker.output_weight state.output_changes output weight - state.projected output weight =
      Tracker.output_weight tracker.output_changes output weight - tracker.projected output weight
  have hmiddle := (apply_changes_induct (P := kept)
    (fun hbefore hsame hstep => (hstep.output_weight hbefore.toSettled output weight).trans hsame)
    (hbalanced.with_buffers tracker.target_changes.drain.2 tracker.source_changes)
    rfl hphases.targets).2
  have hloaded := (apply_changes_induct (P := kept)
    (fun hbefore hsame hstep => (hstep.output_weight hbefore.toSettled output weight).trans hsame)
    (hlinked.middle_balanced.with_buffers middle.target_changes middle.source_changes.drain.2)
    hmiddle hphases.sources).2
  have hprojected : after.projected output weight = loaded.projected output weight := by
    unfold projected
    simp only [hlinked.third.builder, hlinked.third.pointstamps, hlinked.third.summaries]
  rw [hlinked.third.outputs, hprojected]
  exact hloaded

end Tracker

end Timely
