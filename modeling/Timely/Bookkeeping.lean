/-
  Timely/Bookkeeping.lean
  =======================
  **What a tracker derives from its frontiers.**

  Three things are kept up to date from the reported changes of antichains: the
  changes pushed to the owner of the tracker, the total size of the pointstamp
  frontiers, and with it the answer of `tracking_anything`.  In every run they
  agree with the frontiers, however the owner's drains fall between the calls.
-/
import Timely.Exactness

set_option linter.unusedSectionVars false

namespace Timely

open Library

variable {S T : Type} [PartialOrder T] [DecidableLE T] [DecidableEq T] [Ord T] [LinearExtension T]

/-! ### Uses of a tracker -/

/-- What the owner of a tracker does with it. -/
inductive Use (T : Type) where
  | call (call : Call T)
  | drain_pushed
  | tracking_anything

namespace Use

/-- The call that a use makes. -/
def made : Use T → Option (Call T)
  | call made => some made
  | drain_pushed | tracking_anything => none

/-- The use makes no update of value zero. -/
def NonZero (use : Use T) : Prop :=
  ∀ update ∈ use.made.bind Call.change, update.2 ≠ 0

end Use

/-- A tracker, and the changes its owner has drained from it. -/
structure Watched (S T : Type) [Ord T] where
  tracker : Tracker S T
  drained : List ((Location × T) × ℤ)

namespace Tracker

/-- What `tracking_anything` leaves: asking whether a buffer is empty compacts it, and the
    buffer of the targets is asked only when that of the sources is empty. -/
def after_tracking_anything (tracker : Tracker S T) : Tracker S T :=
  if tracker.source_changes.is_empty.1 then
    { tracker with
      source_changes := tracker.source_changes.is_empty.2
      target_changes := tracker.target_changes.is_empty.2 }
  else { tracker with source_changes := tracker.source_changes.is_empty.2 }

/-- Asking changes no sum of the buffers. -/
theorem buffered_after_tracking_anything (tracker : Tracker S T) (location : Location) (time : T) :
    tracker.after_tracking_anything.buffered location time = tracker.buffered location time := by
  unfold after_tracking_anything buffered
  split <;> split <;> simp

end Tracker

/-! ### The size of the frontiers -/

namespace Tracker

/-- The sum of the sizes of all pointstamp frontiers. -/
def frontier_total (tracker : Tracker S T) : ℤ :=
  ∑ location ∈ tracker.builder.locations.toFinset,
    ((tracker.pointstamps_at location).frontier.length : ℤ)

/-- The total that the tracker keeps is the size of its frontiers. -/
def Counted (tracker : Tracker S T) : Prop := tracker.total_counts = tracker.frontier_total

theorem frontier_total_nonneg (tracker : Tracker S T) : 0 ≤ tracker.frontier_total :=
  Finset.sum_nonneg fun _ _ => Int.natCast_nonneg _

/-- Pointstamps are held at locations of the graph only. -/
theorem has_location_of_mem_pointstamps {tracker : Tracker S T} {location : Location} {time : T}
    (h : time ∈ (tracker.pointstamps_at location).frontier) :
    tracker.builder.has_location location = true := by
  rw [← tracker.port_isSome]
  by_contra hnone
  rw [Bool.not_eq_true, Option.isSome_eq_false_iff, Option.isNone_iff_eq_none] at hnone
  simp [pointstamps_at, hnone, MutableAntichain.new] at h

theorem frontier_total_pos_iff {tracker : Tracker S T} :
    0 < tracker.frontier_total ↔
      ∃ location time, time ∈ (tracker.pointstamps_at location).frontier := by
  unfold frontier_total
  rw [Finset.sum_pos_iff_of_nonneg fun _ _ => Int.natCast_nonneg _]
  constructor
  · rintro ⟨location, _, hpos⟩
    obtain ⟨time, hmem⟩ := List.exists_mem_of_length_pos (Int.natCast_pos.mp hpos)
    exact ⟨location, time, hmem⟩
  · rintro ⟨location, time, hmem⟩
    refine ⟨location, ?_, Int.natCast_pos.mpr (List.length_pos_of_mem hmem)⟩
    rw [List.mem_toFinset, Builder.mem_locations_iff]
    exact has_location_of_mem_pointstamps hmem

end Tracker

/-- The deltas of a change report add up to the growth of the frontier. -/
theorem MutableAntichain.Updated.sum_changes {before after : MutableAntichain T}
    {updates changes : List (T × ℤ)} (hbefore : before.Settled)
    (h : MutableAntichain.Updated before updates changes after) :
    (changes.map Prod.snd).sum = (after.frontier.length : ℤ) - before.frontier.length := by
  have hweigh := weigh_changes hbefore.frontier.nodup h.settled.frontier.nodup h.report fun _ => 1
  simpa [weigh] using hweigh

namespace Tracker

variable [PathSummary S T]

theorem Applied.frontier_total_eq {tracker after : Tracker S T} {location : Location}
    {update : T × ℤ} {changes : List (T × ℤ)} (hsettled : tracker.Settled)
    (h : Applied tracker location update changes after) :
    after.frontier_total = tracker.frontier_total + (changes.map Prod.snd).sum := by
  have hlocation : location ∈ tracker.builder.locations.toFinset := by
    rw [List.mem_toFinset, Builder.mem_locations_iff]
    exact h.exists_port
  have hothers : ∀ other ∈ tracker.builder.locations.toFinset.erase location,
      ((after.pointstamps_at other).frontier.length : ℤ) =
        (tracker.pointstamps_at other).frontier.length := by
    intro other hother
    rw [h.pointstamps other (Finset.ne_of_mem_erase hother)]
  unfold frontier_total
  rw [h.builder, ← Finset.add_sum_erase _ _ hlocation, ← Finset.add_sum_erase _ _ hlocation,
    Finset.sum_congr rfl hothers, h.updated.sum_changes (hsettled.pointstamps location)]
  omega

theorem Counted.apply_changes {updates : List (Location × T × ℤ)} {tracker after : Tracker S T}
    (hbalanced : tracker.Balanced) (hcounted : tracker.Counted)
    (h : Tracker.apply_changes updates tracker = some after) : after.Counted := by
  have hboth : after.Balanced ∧ after.Counted := by
    refine foldlM_invariant (P := fun state => state.Balanced ∧ state.Counted)
      ⟨hbalanced, hcounted⟩ ?_ h
    intro before update middle _ hbefore hact
    obtain ⟨changes, happlied, htotal⟩ :=
      applied_and_counted_of_apply_change hbefore.1.toSettled hact
    refine ⟨happlied.balanced hbefore.1, ?_⟩
    unfold Counted
    rw [htotal, hbefore.2, happlied.frontier_total_eq hbefore.1.toSettled]
  exact hboth.2

/-- Circulation leaves the total alone. -/
theorem total_counts_circulate_step {tracker after : Tracker S T} {entry : (T × Location) × ℤ}
    {rest : Worklist (T × Location)} (h : tracker.circulate_step entry rest = some after) :
    after.total_counts = tracker.total_counts := by
  simp only [circulate_step] at h
  split at h
  case isTrue =>
    cases h
    rfl
  case isFalse =>
    split at h
    case h_1 => cases h
    case h_2 =>
      rw [foldl_circulate_change] at h
      cases h
      rfl

theorem total_counts_circulate {fuel : ℕ} {tracker after : Tracker S T}
    (h : circulate fuel tracker = some after) : after.total_counts = tracker.total_counts := by
  induction fuel generalizing tracker with
  | zero =>
    rw [circulate] at h
    split at h
    case isTrue =>
      cases h
      rfl
    case isFalse => cases h
  | succ fuel ih =>
    rw [circulate] at h
    split at h
    case h_1 =>
      cases h
      rfl
    case h_2 =>
      obtain ⟨middle, hmiddle, hrest⟩ := Option.bind_eq_some_iff.mp h
      exact (ih hrest).trans (total_counts_circulate_step hmiddle)

theorem Counted.propagates {tracker after : Tracker S T} (hbalanced : tracker.Balanced)
    (hcounted : tracker.Counted) (h : tracker.Propagates after) : after.Counted := by
  obtain ⟨middle, loaded, hphases⟩ := propagates_iff.mp h
  have hlinked := hphases.linked hbalanced
  have hmiddle : middle.Counted :=
    Counted.apply_changes
      (hbalanced.with_buffers tracker.target_changes.drain.2 tracker.source_changes)
      hcounted hphases.targets
  have hloaded : loaded.Counted :=
    Counted.apply_changes
      (hlinked.middle_balanced.with_buffers middle.target_changes middle.source_changes.drain.2)
      hmiddle hphases.sources
  obtain ⟨fuel, hcirculate⟩ := hphases.circulation
  unfold Counted frontier_total at hloaded ⊢
  rw [total_counts_circulate hcirculate, hloaded, hlinked.third.builder]
  exact Finset.sum_congr rfl fun location _ => by rw [hlinked.third.pointstamps]

/-- A tracker is allocated with nothing counted. -/
theorem Allocated.total_counts [PartialOrder S] [DecidableLE S] {builder : Builder S}
    {tracker : Tracker S T} (h : Allocated builder tracker) : tracker.total_counts = 0 := by
  obtain ⟨fuel, summary, h⟩ := h
  unfold allocate_from at h
  split at h
  case h_1 => cases h
  case h_2 =>
    split at h
    case h_1 => cases h
    case h_2 =>
      refine foldlM_invariant
        (P := fun state : Tracker S T × List (List (Antichain S)) => state.1.total_counts = 0) rfl
        (fun _ hbefore hstore => ?_) h
      rcases store_summaries_cases hstore with heq | ⟨_, heq⟩
      · rw [heq, hbefore]
      · rw [heq]
        exact hbefore

end Tracker

/-! ### What holds between uses -/

section Uses

variable [PathSummary S T]

/-- One use that returns. -/
inductive Uses : Watched S T → Use T → Watched S T → Prop
  | call {tracker after : Tracker S T} {drained : List ((Location × T) × ℤ)} {call : Call T} :
      Tracker.Performs tracker call after → Uses ⟨tracker, drained⟩ (.call call) ⟨after, drained⟩
  | drain_pushed {tracker : Tracker S T} {drained : List ((Location × T) × ℤ)} :
      Uses ⟨tracker, drained⟩ .drain_pushed
        ⟨{ tracker with pushed_changes := tracker.pushed_changes.drain.2 },
          drained ++ tracker.pushed_changes.drain.1⟩
  | tracking_anything {tracker : Tracker S T} {drained : List ((Location × T) × ℤ)} :
      Uses ⟨tracker, drained⟩ .tracking_anything ⟨tracker.after_tracking_anything, drained⟩

namespace Watched

/-- The sum of all changes that were ever pushed for a location and time. -/
def ever_pushed (watched : Watched S T) (location : Location) (time : T) : ℤ :=
  tally watched.drained (location, time) + watched.tracker.pushed_changes.value (location, time)

/-- The derived quantities agree with the frontiers. -/
structure Bookkept (builder : Builder S) (uses : List (Use T)) (watched : Watched S T) : Prop where
  tracking : watched.tracker.Tracking builder (uses.filterMap Use.made)
  pushed : ∀ location time, watched.ever_pushed location time =
    if time ∈ (watched.tracker.implications_at location).frontier then 1 else 0
  counted : watched.tracker.Counted

/-- Neither buffer holds an update of value zero. -/
structure NonZero (watched : Watched S T) : Prop where
  targets : watched.tracker.target_changes.NonZero
  sources : watched.tracker.source_changes.NonZero

/-- The invariant reads no more than the frontiers, the counts and the sums of the buffers. -/
theorem Bookkept.of_same {builder : Builder S} {uses : List (Use T)} {use : Use T}
    {watched after : Watched S T} (h : watched.Bookkept builder uses) (hmade : use.made = none)
    (hquiet : after.tracker.Quiet) (hbuilder : after.tracker.builder = watched.tracker.builder)
    (hpointstamps : ∀ location,
      after.tracker.pointstamps_at location = watched.tracker.pointstamps_at location)
    (himplications : ∀ location,
      after.tracker.implications_at location = watched.tracker.implications_at location)
    (hbuffered : ∀ location time,
      after.tracker.buffered location time = watched.tracker.buffered location time)
    (htotal : after.tracker.total_counts = watched.tracker.total_counts)
    (hpushed : ∀ location time, after.ever_pushed location time = watched.ever_pushed location time) :
    after.Bookkept builder (uses ++ [use]) := by
  have huses : (uses ++ [use]).filterMap Use.made = uses.filterMap Use.made := by
    simp [hmade]
  refine ⟨?_, ?_, ?_⟩
  · rw [huses]
    refine ⟨hbuilder.trans h.tracking.builder_eq, hquiet, fun location time => ?_⟩
    rw [hpointstamps, hbuffered]
    exact h.tracking.count location time
  · intro location time
    rw [hpushed, himplications]
    exact h.pushed location time
  · unfold Tracker.Counted Tracker.frontier_total
    rw [htotal, hbuilder]
    simp only [hpointstamps]
    exact h.counted

theorem Bookkept.uses {builder : Builder S} {uses : List (Use T)} {use : Use T}
    {watched after : Watched S T} (h : watched.Bookkept builder uses) (huse : Uses watched use after) :
    after.Bookkept builder (uses ++ [use]) := by
  have hquiet := h.tracking.quiet
  cases huse with
  | @call tracker after drained call hperforms =>
    have hcalls : (uses ++ [Use.call call]).filterMap Use.made =
        uses.filterMap Use.made ++ [call] := by simp [Use.made]
    have htracking := h.tracking.performs hperforms
    rw [← hcalls] at htracking
    cases hperforms with
    | update_target => exact ⟨htracking, h.pushed, h.counted⟩
    | update_source => exact ⟨htracking, h.pushed, h.counted⟩
    | propagate_all hpropagates =>
      have hpropagated : Tracker.Propagated tracker after :=
        hpropagates.propagated hquiet.toBalanced
      refine ⟨htracking, ?_, h.counted.propagates hquiet.toBalanced hpropagates⟩
      -- what the call pushed is the difference between the frontiers
      intro location time
      have hbefore : tally drained (location, time) + tracker.pushed_changes.value (location, time) =
          if time ∈ (tracker.implications_at location).frontier then 1 else 0 := h.pushed location time
      simp only [ever_pushed]
      rw [hpropagated.pushed]
      omega
  | @drain_pushed tracker drained =>
    refine h.of_same rfl ⟨⟨⟨hquiet.pointstamps, hquiet.implications⟩, hquiet.balance⟩,
      hquiet.worklist_nil⟩ rfl (fun _ => rfl) (fun _ => rfl) (fun _ _ => rfl) rfl ?_
    intro location time
    unfold ever_pushed
    rw [tally_append, add_assoc]
    exact congrArg _ ((add_zero _).trans (ChangeBatch.tally_compact _ _))
  | @tracking_anything tracker drained =>
    have hnone : (Use.tracking_anything : Use T).made = none := rfl
    refine h.of_same hnone ?_ ?_ ?_ ?_
      (tracker.buffered_after_tracking_anything · ·) ?_ ?_
    all_goals
      unfold Tracker.after_tracking_anything
      split
    · exact ⟨⟨⟨hquiet.pointstamps, hquiet.implications⟩, hquiet.balance⟩, hquiet.worklist_nil⟩
    · exact ⟨⟨⟨hquiet.pointstamps, hquiet.implications⟩, hquiet.balance⟩, hquiet.worklist_nil⟩
    all_goals first | rfl | exact fun _ => rfl | exact fun _ _ => rfl

/-- Updates of values other than zero bring no zero into the buffers. -/
theorem NonZero.uses {watched after : Watched S T} {use : Use T} (h : watched.NonZero)
    (hquiet : watched.tracker.Quiet) (hnonzero : use.NonZero) (huse : Uses watched use after) :
    after.NonZero := by
  cases huse with
  | call hperforms =>
    cases hperforms with
    | update_target target time value => exact ⟨h.targets.update _ (hnonzero _ rfl), h.sources⟩
    | update_source source time value => exact ⟨h.targets, h.sources.update _ (hnonzero _ rfl)⟩
    | propagate_all hpropagates =>
      obtain ⟨htargets, hsources⟩ := hpropagates.buffers_eq_new hquiet.toBalanced
      constructor
      · rw [htargets]
        exact ChangeBatch.nonZero_new
      · rw [hsources]
        exact ChangeBatch.nonZero_new
  | drain_pushed => exact ⟨h.targets, h.sources⟩
  | tracking_anything =>
    unfold Tracker.after_tracking_anything
    split
    · exact ⟨h.targets.is_empty, h.sources.is_empty⟩
    · exact ⟨h.targets, h.sources.is_empty⟩

end Watched

/-! ### Runs -/

section Runs

variable [PartialOrder S] [DecidableLE S] {builder : Builder S} {allocated : Tracker S T}
  {uses : List (Use T)} {watched : Watched S T}

namespace Watched

theorem Bookkept.of_run (hallocated : Tracker.Allocated builder allocated)
    (hrun : Run Uses ⟨allocated, []⟩ uses watched) : watched.Bookkept builder uses := by
  refine hrun.invariant ⟨hallocated.fresh.tracking, ?_, ?_⟩ fun hbefore huse => hbefore.uses huse
  · intro location time
    unfold ever_pushed
    rw [hallocated.fresh.pushed, hallocated.fresh.implications]
    rfl
  · have htotal : allocated.total_counts = 0 := hallocated.total_counts
    unfold Tracker.Counted Tracker.frontier_total
    rw [htotal]
    refine (Finset.sum_eq_zero fun location _ => ?_).symm
    rw [hallocated.fresh.pointstamps]
    rfl

theorem NonZero.of_run (hallocated : Tracker.Allocated builder allocated)
    (hnonzero : ∀ use ∈ uses, use.NonZero) (hrun : Run Uses ⟨allocated, []⟩ uses watched) :
    watched.NonZero := by
  induction hrun with
  | nil =>
    constructor
    · rw [hallocated.fresh.targets]
      exact ChangeBatch.nonZero_new
    · rw [hallocated.fresh.sources]
      exact ChangeBatch.nonZero_new
  | snoc hbefore hlast ih =>
    exact NonZero.uses (ih fun use huse => hnonzero use (by simp [huse]))
      (Bookkept.of_run hallocated hbefore).tracking.quiet (hnonzero _ (by simp)) hlast

/-- The answer of `tracking_anything` is no exactly when nothing is buffered and no
    pointstamp has a positive count. -/
theorem Bookkept.tracking_anything_eq_false_iff (h : watched.Bookkept builder uses)
    (hnonzero : watched.NonZero) :
    watched.tracker.tracking_anything = false ↔
      (∀ location time, watched.tracker.buffered location time = 0) ∧
        ∀ location time, ¬ 0 < accumulated (uses.filterMap Use.made) location time := by
  have hbuffers : (watched.tracker.source_changes.is_empty.1 = true ∧
      watched.tracker.target_changes.is_empty.1 = true) ↔
      ∀ location time, watched.tracker.buffered location time = 0 := by
    rw [ChangeBatch.is_empty_iff hnonzero.sources, ChangeBatch.is_empty_iff hnonzero.targets]
    constructor
    · rintro ⟨hsources, htargets⟩ ⟨node, port⟩ time
      cases port with
      | target port => exact htargets _
      | source port => exact hsources _
    · intro hzero
      exact ⟨fun key => hzero ⟨key.1.node, .source key.1.port⟩ key.2,
        fun key => hzero ⟨key.1.node, .target key.1.port⟩ key.2⟩
  have htotal : 0 < watched.tracker.total_counts ↔
      ∃ location time, 0 < (watched.tracker.pointstamps_at location).count_for time := by
    rw [h.counted, Tracker.frontier_total_pos_iff]
    constructor
    · rintro ⟨location, time, hmem⟩
      exact ⟨location, time,
        (h.tracking.quiet.pointstamps location).frontier.present_of_mem time hmem⟩
    · rintro ⟨location, time, hpos⟩
      obtain ⟨least, hleast, _⟩ :=
        (h.tracking.quiet.pointstamps location).frontier.covers time hpos
      exact ⟨location, least, hleast⟩
  have hanswer : watched.tracker.tracking_anything = false ↔
      (watched.tracker.source_changes.is_empty.1 = true ∧
        watched.tracker.target_changes.is_empty.1 = true) ∧ ¬ 0 < watched.tracker.total_counts := by
    simp [Tracker.tracking_anything]
  rw [hanswer, hbuffers, htotal]
  refine and_congr_right fun hzero => ?_
  push Not
  refine forall_congr' fun location => forall_congr' fun time => ?_
  rw [← h.tracking.count location time, hzero, add_zero]

end Watched

/-- In every run the changes ever pushed at a location add up to its implication frontier, the
    total is the size of all pointstamp frontiers, and a tracker that tracks nothing has
    nothing buffered and no positive count. -/
theorem bookkeeping_exact (hallocated : Tracker.Allocated builder allocated)
    (hrun : Run Uses ⟨allocated, []⟩ uses watched) :
    (∀ location time, watched.ever_pushed location time =
      if time ∈ (watched.tracker.implications_at location).frontier then 1 else 0) ∧
    (watched.tracker.total_counts = watched.tracker.frontier_total ∧ 0 ≤ watched.tracker.total_counts) ∧
    ((∀ use ∈ uses, use.NonZero) →
      (watched.tracker.tracking_anything = false ↔
        (∀ location time, watched.tracker.buffered location time = 0) ∧
          ∀ location time, ¬ 0 < accumulated (uses.filterMap Use.made) location time)) := by
  have hbookkept := Watched.Bookkept.of_run hallocated hrun
  refine ⟨hbookkept.pushed, ⟨hbookkept.counted, ?_⟩, fun hnonzero => ?_⟩
  · rw [hbookkept.counted]
    exact watched.tracker.frontier_total_nonneg
  · exact hbookkept.tracking_anything_eq_false_iff (Watched.NonZero.of_run hallocated hnonzero hrun)

end Runs

theorem example_propagates :
    ((Tracker.example_tracker.update_source ⟨0, 0⟩ 17 1).propagate_all 12).isSome := by decide

/-- The module example, propagated and drained. -/
def example_watched : Watched (Unsigned 64) (Unsigned 64) :=
  let after := ((Tracker.example_tracker.update_source ⟨0, 0⟩ 17 1).propagate_all 12).get
    example_propagates
  ⟨{ after with pushed_changes := after.pushed_changes.drain.2 },
    after.pushed_changes.drain.1⟩

theorem bookkeeping_exact_example :
    example_watched.tracker.total_counts = example_watched.tracker.frontier_total ∧
      (example_watched.tracker.tracking_anything = false ↔
        (∀ location time, example_watched.tracker.buffered location time = 0) ∧
          ∀ location time, ¬ 0 < accumulated
            [.update_source ⟨0, 0⟩ (17 : Unsigned 64) 1, .propagate_all] location time) := by
  have hrun : Run Uses ⟨Tracker.example_tracker, []⟩
      [.call (.update_source ⟨0, 0⟩ 17 1), .call .propagate_all, .drain_pushed] example_watched :=
    ((Run.nil.snoc (Uses.call (Tracker.Performs.update_source _ _ _))).snoc
      (Uses.call (Tracker.Performs.propagate_all ⟨12, (Option.some_get example_propagates).symm⟩))).snoc
        Uses.drain_pushed
  obtain ⟨_, htotal, hanything⟩ := bookkeeping_exact Tracker.example_allocated hrun
  refine ⟨htotal.1, hanything fun use huse update hupdate => ?_⟩
  simp only [List.mem_cons, List.not_mem_nil, or_false] at huse
  rcases huse with rfl | rfl | rfl
  · cases hupdate
    decide
  · cases hupdate
  · cases hupdate

end Uses

end Timely
