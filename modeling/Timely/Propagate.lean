/-
  Timely/Propagate.lean
  =====================
  **Whole calls of `propagate_all`.**

  Induction principles for the two loops, and from them `Propagated`: what a
  call that returns does to the counts, the frontiers and the pushed changes.
-/
import Timely.Balance
import Timely.Library.Run

set_option linter.unusedSectionVars false

namespace Timely

open Library

variable {S T : Type} [PartialOrder T] [DecidableLE T] [DecidableEq T] [Ord T] [LinearExtension T]
  [PathSummary S T]

namespace Tracker

/-! ### Step 1 -/

/-- Apply buffered changes in order. -/
def apply_changes (changes : List (Location × T × ℤ)) (tracker : Tracker S T) :
    Option (Tracker S T) :=
  changes.foldlM (fun tracker change => tracker.apply_change change.1 change.2) tracker

/-- The buffered target changes, by location. -/
def drained_targets (tracker : Tracker S T) : List (Location × T × ℤ) :=
  tracker.target_changes.drain.1.map fun change =>
    (Location.from_target change.1.1, change.1.2, change.2)

/-- The buffered source changes, by location. -/
def drained_sources (tracker : Tracker S T) : List (Location × T × ℤ) :=
  tracker.source_changes.drain.1.map fun change =>
    (Location.from_source change.1.1, change.1.2, change.2)

theorem drain_target_changes_eq (tracker : Tracker S T) :
    tracker.drain_target_changes = apply_changes tracker.drained_targets
      { tracker with target_changes := tracker.target_changes.drain.2 } := by
  unfold drain_target_changes apply_changes drained_targets
  rw [List.foldlM_map]

theorem drain_source_changes_eq (tracker : Tracker S T) :
    tracker.drain_source_changes = apply_changes tracker.drained_sources
      { tracker with source_changes := tracker.source_changes.drain.2 } := by
  unfold drain_source_changes apply_changes drained_sources
  rw [List.foldlM_map]

/-- What every applied change preserves holds after a list of them. -/
theorem apply_changes_induct {P : Tracker S T → Prop}
    (hstep : ∀ {before after : Tracker S T} {location update changes}, before.Balanced → P before →
      Applied before location update changes after → P after)
    {updates : List (Location × T × ℤ)} {tracker after : Tracker S T} (hbalanced : tracker.Balanced)
    (hstart : P tracker) (h : apply_changes updates tracker = some after) :
    after.Balanced ∧ P after := by
  refine foldlM_invariant (P := fun state => state.Balanced ∧ P state)
    ⟨hbalanced, hstart⟩ ?_ h
  intro before update middle _ hbefore hact
  obtain ⟨changes, happlied⟩ := applied_of_apply_change hbefore.1.toSettled hact
  exact ⟨happlied.balanced hbefore.1, hstep hbefore.1 hbefore.2 happlied⟩

/-- What step 1 leaves as it is. -/
structure SameImplications (tracker after : Tracker S T) : Prop where
  builder : after.builder = tracker.builder
  implications : ∀ location, after.implications_at location = tracker.implications_at location
  summaries : ∀ location, after.summaries_at location = tracker.summaries_at location
  pushed : after.pushed_changes = tracker.pushed_changes
  targets : after.target_changes = tracker.target_changes
  sources : after.source_changes = tracker.source_changes

theorem SameImplications.applied {tracker before after : Tracker S T} {location : Location}
    {update : T × ℤ} {changes : List (T × ℤ)} (h : SameImplications tracker before)
    (hstep : Applied before location update changes after) : SameImplications tracker after where
  builder := hstep.builder.trans h.builder
  implications other := (hstep.implications other).trans (h.implications other)
  summaries other := (hstep.summaries other).trans (h.summaries other)
  pushed := hstep.pushed.trans h.pushed
  targets := hstep.targets.trans h.targets
  sources := hstep.sources.trans h.sources

theorem sameImplications_of_apply_changes {updates : List (Location × T × ℤ)}
    {tracker after : Tracker S T} (hbalanced : tracker.Balanced)
    (h : apply_changes updates tracker = some after) :
    after.Balanced ∧ SameImplications tracker after :=
  apply_changes_induct (P := SameImplications tracker)
    (fun _ hsame hstep => hsame.applied hstep) hbalanced
    ⟨rfl, fun _ => rfl, fun _ => rfl, rfl, rfl, rfl⟩ h

/-- Applying changes adds them to the pointstamp counts. -/
theorem count_apply_changes {updates : List (Location × T × ℤ)} {tracker after : Tracker S T}
    (hbalanced : tracker.Balanced) (h : apply_changes updates tracker = some after)
    (location : Location) (time : T) :
    (after.pointstamps_at location).count_for time =
      (tracker.pointstamps_at location).count_for time +
        tally (updates.map fun update => ((update.1, update.2.1), update.2.2)) (location, time) := by
  induction updates generalizing tracker with
  | nil =>
    rw [apply_changes, List.foldlM_nil] at h
    cases h
    rw [List.map_nil, tally_nil, add_zero]
  | cons update updates ih =>
    obtain ⟨middle, hmiddle, hrest⟩ := foldlM_cons_cases h
    obtain ⟨changes, happlied⟩ := applied_of_apply_change hbalanced.toSettled hmiddle
    rw [ih (happlied.balanced hbalanced) hrest, List.map_cons, tally_cons, ← add_assoc]
    congr 1
    by_cases heq : location = update.1
    · subst heq
      rw [happlied.updated.count, tally_cons, tally_nil, add_zero]
      by_cases htime : update.2.1 = time
      · rw [if_pos htime, if_pos (by rw [htime])]
      · rw [if_neg htime, if_neg fun hkey => htime (Prod.mk.inj hkey).2]
    · rw [happlied.pointstamps location heq, if_neg fun hkey => heq (Prod.mk.inj hkey).1.symm,
        add_zero]

theorem tally_drained (tracker : Tracker S T) (location : Location) (time : T) :
    tally (tracker.drained_targets.map fun update => ((update.1, update.2.1), update.2.2))
        (location, time) +
      tally (tracker.drained_sources.map fun update => ((update.1, update.2.1), update.2.2))
        (location, time) = tracker.buffered location time := by
  unfold drained_targets drained_sources buffered
  rw [List.map_map, List.map_map]
  obtain ⟨node, port⟩ := location
  cases port with
  | target port =>
    have hsent := tally_map_injective
      (f := fun key : Target × T => (Location.from_target key.1, key.2))
      (fun first second h => Prod.ext (Location.from_target_injective (Prod.mk.inj h).1)
        (Prod.mk.inj h).2) tracker.target_changes.drain.1 (⟨node, port⟩, time)
    have hother : tally (tracker.source_changes.drain.1.map
        ((fun update : Location × T × ℤ => ((update.1, update.2.1), update.2.2)) ∘
          fun change => (Location.from_source change.1.1, change.1.2, change.2)))
        (⟨node, .target port⟩, time) = 0 := by
      apply tally_eq_zero_of_not_mem
      intro entry hentry hkey
      obtain ⟨change, _, rfl⟩ := List.mem_map.mp hentry
      exact Location.from_target_ne_from_source ⟨node, port⟩ _ (Prod.mk.inj hkey).1.symm
    rw [hother, add_zero]
    exact hsent.trans (ChangeBatch.tally_compact _ _)
  | source port =>
    have hsent := tally_map_injective
      (f := fun key : Source × T => (Location.from_source key.1, key.2))
      (fun first second h => Prod.ext (Location.from_source_injective (Prod.mk.inj h).1)
        (Prod.mk.inj h).2) tracker.source_changes.drain.1 (⟨node, port⟩, time)
    have hother : tally (tracker.target_changes.drain.1.map
        ((fun update : Location × T × ℤ => ((update.1, update.2.1), update.2.2)) ∘
          fun change => (Location.from_target change.1.1, change.1.2, change.2)))
        (⟨node, .source port⟩, time) = 0 := by
      apply tally_eq_zero_of_not_mem
      intro entry hentry hkey
      obtain ⟨change, _, rfl⟩ := List.mem_map.mp hentry
      exact Location.from_target_ne_from_source _ ⟨node, port⟩ (Prod.mk.inj hkey).1
    rw [hother, zero_add]
    exact hsent.trans (ChangeBatch.tally_compact _ _)

/-! ### Step 2 -/

/-- What every iteration preserves holds when the worklist is empty. -/
theorem circulate_supported_induct {P : Tracker S T → Prop}
    (hstep : ∀ {before after : Tracker S T} {entry rest changes}, before.Supported → P before →
      before.worklist.Popped entry rest → Circulated before entry rest changes after → P after)
    {fuel : ℕ} {tracker after : Tracker S T} (hsupported : tracker.Supported) (hstart : P tracker)
    (h : circulate fuel tracker = some after) :
    (after.Supported ∧ after.worklist.entries = []) ∧ P after := by
  induction fuel generalizing tracker with
  | zero =>
    rw [circulate] at h
    split at h
    case isTrue hnone =>
      cases h
      rw [Option.isNone_iff_eq_none, Worklist.next_eq_none] at hnone
      exact ⟨⟨hsupported, hnone⟩, hstart⟩
    case isFalse => cases h
  | succ fuel ih =>
    rw [circulate] at h
    split at h
    case h_1 hnone =>
      cases h
      exact ⟨⟨hsupported, Worklist.next_eq_none.mp hnone⟩, hstart⟩
    case h_2 entry rest hnext =>
      obtain ⟨middle, hmiddle, hrest⟩ := Option.bind_eq_some_iff.mp h
      obtain ⟨changes, hcirculated⟩ := circulated_of_circulate_step hsupported.implications hmiddle
      have hpopped := Worklist.popped_of_next hnext
      exact ih (hcirculated.supported hsupported hpopped)
        (hstep hsupported hstart hpopped hcirculated) hrest

theorem circulate_induct {P : Tracker S T → Prop}
    (hstep : ∀ {before after : Tracker S T} {entry rest changes}, before.Balanced → P before →
      before.worklist.Popped entry rest → Circulated before entry rest changes after → P after)
    {fuel : ℕ} {tracker after : Tracker S T} (hbalanced : tracker.Balanced) (hstart : P tracker)
    (h : circulate fuel tracker = some after) : after.Quiet ∧ P after := by
  obtain ⟨⟨hsupported, hnil⟩, hsettled, hafter⟩ :=
    circulate_supported_induct (P := fun state => state.Settled ∧ P state)
      (fun hsupported hbefore hpopped hcirculated =>
        ⟨hcirculated.settled hbefore.1,
          hstep ⟨hbefore.1, hsupported.balance⟩ hbefore.2 hpopped hcirculated⟩)
      hbalanced.toSupported ⟨hbalanced.toSettled, hstart⟩ h
  exact ⟨⟨⟨hsettled, hsupported.balance⟩, hnil⟩, hafter⟩

/-- What step 2 leaves as it is, and the changes it pushes. -/
structure SamePointstamps (tracker after : Tracker S T) : Prop where
  builder : after.builder = tracker.builder
  pointstamps : ∀ location, after.pointstamps_at location = tracker.pointstamps_at location
  summaries : ∀ location, after.summaries_at location = tracker.summaries_at location
  outputs : after.output_changes = tracker.output_changes
  targets : after.target_changes = tracker.target_changes
  sources : after.source_changes = tracker.source_changes
  pushed : ∀ location time, after.pushed_changes.value (location, time) =
    tracker.pushed_changes.value (location, time) +
      (if time ∈ (after.implications_at location).frontier then 1 else 0) -
        (if time ∈ (tracker.implications_at location).frontier then 1 else 0)

theorem samePointstamps_of_supported {fuel : ℕ} {tracker after : Tracker S T}
    (hsupported : tracker.Supported) (h : circulate fuel tracker = some after) :
    (after.Supported ∧ after.worklist.entries = []) ∧ SamePointstamps tracker after := by
  refine circulate_supported_induct (P := SamePointstamps tracker) ?_ hsupported
    ⟨rfl, fun _ => rfl, fun _ => rfl, rfl, rfl, rfl, fun _ _ => by omega⟩ h
  intro before after entry rest changes hbefore hsame hpopped hstep
  refine ⟨hstep.builder.trans hsame.builder,
    fun other => (hstep.pointstamps other).trans (hsame.pointstamps other),
    fun other => (hstep.summaries other).trans (hsame.summaries other),
    hstep.outputs.trans hsame.outputs, hstep.targets.trans hsame.targets,
    hstep.sources.trans hsame.sources, ?_⟩
  intro location time
  have hfold := ChangeBatch.value_foldl_update before.pushed_changes
    (changes.map fun change => ((entry.1.2, change.1), change.2)) (location, time)
  rw [List.foldl_map] at hfold
  rw [hstep.pushed, hfold, hsame.pushed]
  by_cases heq : location = entry.1.2
  · subst heq
    have hsent : tally (changes.map fun change => ((entry.1.2, change.1), change.2))
        (entry.1.2, time) = tally changes time :=
      tally_map_injective (f := fun start : T => (entry.1.2, start))
        (fun _ _ hpair => (Prod.mk.inj hpair).2) changes time
    rw [hsent, hstep.updated.report]
    ring
  · have hnone : tally (changes.map fun change => ((entry.1.2, change.1), change.2))
        (location, time) = 0 := by
      apply tally_eq_zero_of_not_mem
      intro update hupdate hkey
      obtain ⟨change, _, rfl⟩ := List.mem_map.mp hupdate
      exact heq (Prod.mk.inj hkey).1.symm
    rw [hnone, hstep.implications location heq, add_zero]

theorem samePointstamps_of_circulate {fuel : ℕ} {tracker after : Tracker S T}
    (hbalanced : tracker.Balanced) (h : circulate fuel tracker = some after) :
    after.Quiet ∧ SamePointstamps tracker after := by
  obtain ⟨⟨hsupported, hnil⟩, hsame⟩ := samePointstamps_of_supported hbalanced.toSupported h
  have hsettled : after.Settled :=
    ⟨fun location => by rw [hsame.pointstamps]; exact hbalanced.pointstamps location,
      hsupported.implications⟩
  exact ⟨⟨⟨hsettled, hsupported.balance⟩, hnil⟩, hsame⟩

/-! ### The whole call -/

/-- The three parts of a call: targets, sources, circulation. -/
structure Phases (tracker middle loaded after : Tracker S T) : Prop where
  targets : apply_changes tracker.drained_targets
    { tracker with target_changes := tracker.target_changes.drain.2 } = some middle
  sources : apply_changes middle.drained_sources
    { middle with source_changes := middle.source_changes.drain.2 } = some loaded
  circulation : ∃ fuel, circulate fuel loaded = some after

theorem propagates_iff {tracker after : Tracker S T} :
    tracker.Propagates after ↔ ∃ middle loaded, Phases tracker middle loaded after := by
  unfold Propagates propagate_all
  constructor
  · rintro ⟨fuel, h⟩
    obtain ⟨loaded, hloaded, hcirculate⟩ := Option.bind_eq_some_iff.mp h
    obtain ⟨middle, htargets, hsources⟩ := Option.bind_eq_some_iff.mp hloaded
    rw [drain_target_changes_eq] at htargets
    rw [drain_source_changes_eq] at hsources
    exact ⟨middle, loaded, htargets, hsources, fuel, hcirculate⟩
  · rintro ⟨middle, loaded, htargets, hsources, fuel, hcirculate⟩
    refine ⟨fuel, ?_⟩
    rw [drain_target_changes_eq, htargets, Option.bind_some, drain_source_changes_eq, hsources,
      Option.bind_some, hcirculate]

/-- Which updates are buffered plays no part in the balance. -/
theorem Balanced.with_buffers {tracker : Tracker S T} (h : tracker.Balanced)
    (targets : ChangeBatch (Target × T)) (sources : ChangeBatch (Source × T)) :
    Balanced { tracker with target_changes := targets, source_changes := sources } :=
  ⟨⟨h.pointstamps, h.implications⟩, h.balance⟩

/-- What a call that returns does to a tracker. -/
structure Propagated (tracker after : Tracker S T) : Prop where
  quiet : after.Quiet
  builder : after.builder = tracker.builder
  summaries : ∀ location, after.summaries_at location = tracker.summaries_at location
  count : ∀ location time, (after.pointstamps_at location).count_for time =
    (tracker.pointstamps_at location).count_for time + tracker.buffered location time
  buffered : ∀ location time, after.buffered location time = 0
  pushed : ∀ location time, after.pushed_changes.value (location, time) =
    tracker.pushed_changes.value (location, time) +
      (if time ∈ (after.implications_at location).frontier then 1 else 0) -
        (if time ∈ (tracker.implications_at location).frontier then 1 else 0)

/-- What the phases of a call leave in place for each other. -/
structure Phases.Linked (tracker middle loaded after : Tracker S T) : Prop where
  middle_balanced : middle.Balanced
  loaded_balanced : loaded.Balanced
  first : SameImplications
    { tracker with target_changes := tracker.target_changes.drain.2 } middle
  second : SameImplications
    { middle with source_changes := middle.source_changes.drain.2 } loaded
  third : SamePointstamps loaded after
  quiet : after.Quiet

theorem Phases.linked {tracker middle loaded after : Tracker S T}
    (h : Phases tracker middle loaded after) (hbalanced : tracker.Balanced) :
    Phases.Linked tracker middle loaded after := by
  obtain ⟨fuel, hcirculate⟩ := h.circulation
  have hfirst := sameImplications_of_apply_changes (hbalanced.with_buffers _ _) h.targets
  have hsecond := sameImplications_of_apply_changes (hfirst.1.with_buffers _ _) h.sources
  have hthird := samePointstamps_of_circulate hsecond.1 hcirculate
  exact ⟨hfirst.1, hsecond.1, hfirst.2, hsecond.2, hthird.2, hthird.1⟩

/-- A call leaves nothing in the buffers. -/
theorem Propagates.buffers_eq_new {tracker after : Tracker S T} (hbalanced : tracker.Balanced)
    (h : tracker.Propagates after) :
    after.target_changes = ChangeBatch.new ∧ after.source_changes = ChangeBatch.new := by
  obtain ⟨middle, loaded, hphases⟩ := propagates_iff.mp h
  obtain ⟨_, _, hfirst, hsecond, hthird, _⟩ := hphases.linked hbalanced
  exact ⟨hthird.targets.trans (hsecond.targets.trans hfirst.targets),
    hthird.sources.trans hsecond.sources⟩

theorem Propagates.propagated {tracker after : Tracker S T} (hbalanced : tracker.Balanced)
    (h : tracker.Propagates after) : Propagated tracker after := by
  obtain ⟨middle, loaded, hphases⟩ := propagates_iff.mp h
  obtain ⟨hmiddle, _, hfirst, hsecond, hthird, hquiet⟩ := hphases.linked hbalanced
  refine ⟨hquiet, ?_, ?_, ?_, ?_, ?_⟩
  · exact hthird.builder.trans (hsecond.builder.trans hfirst.builder)
  · intro location
    exact (hthird.summaries location).trans
      ((hsecond.summaries location).trans (hfirst.summaries location))
  · intro location time
    have hcountTargets := count_apply_changes (hbalanced.with_buffers _ _) hphases.targets location time
    have hcountSources :=
      count_apply_changes (hmiddle.with_buffers _ _) hphases.sources location time
    have hdrained : middle.drained_sources = tracker.drained_sources := by
      unfold drained_sources
      rw [hfirst.sources]
    have htotal := tracker.tally_drained location time
    rw [hdrained] at hcountSources
    rw [hthird.pointstamps, hcountSources]
    change (middle.pointstamps_at location).count_for time + _ = _
    rw [hcountTargets]
    change (tracker.pointstamps_at location).count_for time + _ + _ = _
    omega
  · intro location time
    obtain ⟨htargets, hsources⟩ := h.buffers_eq_new hbalanced
    unfold buffered
    rw [htargets, hsources]
    split <;> rfl
  · intro location time
    have himplications : loaded.implications_at location = tracker.implications_at location :=
      (hsecond.implications location).trans (hfirst.implications location)
    have hpushed : loaded.pushed_changes = tracker.pushed_changes :=
      hsecond.pushed.trans hfirst.pushed
    rw [hthird.pushed, himplications, hpushed]

theorem circulate_of_next_eq_none {tracker : Tracker S T} (h : tracker.worklist.next = none)
    (fuel : ℕ) : circulate fuel tracker = some tracker := by
  cases fuel with
  | zero => rw [circulate, h, Option.isNone_none, if_pos rfl]
  | succ fuel => rw [circulate, h]

/-- The fuel plays no part in what circulation returns. -/
theorem circulate_unique {fuel fuel' : ℕ} {tracker after after' : Tracker S T}
    (h : circulate fuel tracker = some after) (h' : circulate fuel' tracker = some after') :
    after = after' := by
  induction fuel generalizing fuel' tracker with
  | zero =>
    rw [circulate] at h
    split at h
    case isFalse => cases h
    case isTrue hnone =>
      cases h
      rw [circulate_of_next_eq_none (Option.isNone_iff_eq_none.mp hnone)] at h'
      exact Option.some.inj h'
  | succ fuel ih =>
    rw [circulate] at h
    split at h
    case h_1 hnone =>
      cases h
      rw [circulate_of_next_eq_none hnone] at h'
      exact Option.some.inj h'
    case h_2 entry rest hnext =>
      obtain ⟨middle, hmiddle, hrest⟩ := Option.bind_eq_some_iff.mp h
      cases fuel' with
      | zero =>
        rw [circulate, hnext] at h'
        cases h'
      | succ fuel' =>
        rw [circulate, hnext] at h'
        obtain ⟨middle', hmiddle', hrest'⟩ := Option.bind_eq_some_iff.mp h'
        obtain rfl := Option.some.inj (hmiddle.symm.trans hmiddle')
        exact ih hrest hrest'

theorem Propagates.unique {tracker after after' : Tracker S T} (h : tracker.Propagates after)
    (h' : tracker.Propagates after') : after = after' := by
  obtain ⟨fuel, h⟩ := h
  obtain ⟨fuel', h'⟩ := h'
  obtain ⟨loaded, hloaded, hcirculate⟩ := Option.bind_eq_some_iff.mp h
  obtain ⟨loaded', hloaded', hcirculate'⟩ := Option.bind_eq_some_iff.mp h'
  obtain rfl := Option.some.inj (hloaded.symm.trans hloaded')
  exact circulate_unique hcirculate hcirculate'

/-- No pushed change is zero. -/
theorem Propagates.nonZero_pushed {tracker after : Tracker S T} (hbalanced : tracker.Balanced)
    (h : tracker.Propagates after) (hpushed : tracker.pushed_changes.NonZero) :
    after.pushed_changes.NonZero := by
  obtain ⟨middle, loaded, hphases⟩ := propagates_iff.mp h
  have hlinked := hphases.linked hbalanced
  obtain ⟨fuel, hcirculate⟩ := hphases.circulation
  have hloaded : loaded.pushed_changes = tracker.pushed_changes :=
    hlinked.second.pushed.trans hlinked.first.pushed
  refine (circulate_induct (P := fun state => state.pushed_changes.NonZero) ?_ hlinked.loaded_balanced
    (by rwa [hloaded]) hcirculate).2
  intro before next entry rest changes _ hbefore _ hstep
  have hfold := hbefore.foldl_update (changes.map fun change => ((entry.1.2, change.1), change.2)) (by
    intro update hupdate
    obtain ⟨change, hchange, rfl⟩ := List.mem_map.mp hupdate
    exact hstep.updated.nonzero change hchange)
  rw [List.foldl_map] at hfold
  rw [hstep.pushed]
  exact hfold

end Tracker

end Timely
