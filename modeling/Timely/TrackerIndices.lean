/-
  Timely/TrackerIndices.lean
  ==========================
  **The indices of the tracker exist.**

  A call of `propagate_all` looks up a port for each buffered update and for each
  entry of the worklist.  In a graph whose edges lead to existing ports both are
  found, however many iterations there are: where the call does not return it is
  for want of an end, not of a port.
-/
import Timely.Exactness

set_option linter.unusedSectionVars false

namespace Timely

open Library

variable {S T : Type} [PartialOrder T] [DecidableLE T] [DecidableEq T] [Ord T] [LinearExtension T]
  [PathSummary S T]

namespace Tracker

/-! ### Iterations one by one -/

/-- Step 1 of a call. -/
def load (tracker : Tracker S T) : Option (Tracker S T) :=
  tracker.drain_target_changes.bind drain_source_changes

/-- At most the given number of iterations of step 2. -/
def iterate : ℕ → Tracker S T → Option (Tracker S T)
  | 0, tracker => some tracker
  | count + 1, tracker =>
    match tracker.worklist.next with
    | none => some tracker
    | some (entry, rest) => (tracker.circulate_step entry rest).bind (iterate count)

/-- Circulation returns exactly if the iterations go through and leave nothing to be done. -/
theorem circulate_eq_iterate (fuel : ℕ) (tracker : Tracker S T) :
    circulate fuel tracker = (tracker.iterate fuel).bind fun last =>
      if last.worklist.next.isNone then some last else none := by
  induction fuel generalizing tracker with
  | zero => rfl
  | succ fuel ih =>
    rw [circulate, iterate]
    cases hnext : tracker.worklist.next with
    | none => simp [hnext]
    | some popped =>
      obtain ⟨entry, rest⟩ := popped
      simp only [Option.bind_assoc]
      congr 1
      funext middle
      exact ih middle

theorem propagate_all_eq_iterate (fuel : ℕ) (tracker : Tracker S T) :
    tracker.propagate_all fuel = (tracker.load.bind (iterate fuel)).bind fun last =>
      if last.worklist.next.isNone then some last else none := by
  rw [Option.bind_assoc]
  change tracker.load.bind (circulate fuel) = _
  congr 1
  funext loaded
  exact circulate_eq_iterate fuel loaded

/-! ### Trackers that are ready for a call -/

/-- Every port that a call will look up exists. -/
structure Ready (tracker : Tracker S T) : Prop where
  balanced : tracker.Balanced
  edges : tracker.builder.EdgesExist
  fits : tracker.Fits
  located : tracker.Located
  buffered : tracker.BufferedLocated
  pushed : tracker.pushed_changes.KeysIn tracker.builder.HasKey

/-- Two trackers of the same graph, with as many outputs. -/
structure SameGraph (tracker after : Tracker S T) : Prop where
  builder : after.builder = tracker.builder
  outputs : after.output_changes.length = tracker.output_changes.length

theorem SameGraph.refl (tracker : Tracker S T) : SameGraph tracker tracker := ⟨rfl, rfl⟩

theorem SameGraph.trans {first second third : Tracker S T} (h : SameGraph first second)
    (h' : SameGraph second third) : SameGraph first third :=
  ⟨h'.builder.trans h.builder, h'.outputs.trans h.outputs⟩

/-- Buffering an update at a location of the graph. -/
theorem Ready.update {tracker : Tracker S T} (h : tracker.Ready) {location : Location}
    (hlocation : tracker.builder.has_location location = true) (time : T) (value : ℤ) :
    (tracker.update location time value).Ready ∧ SameGraph tracker (tracker.update location time value) := by
  obtain ⟨node, port⟩ := location
  cases port with
  | target port =>
    refine ⟨⟨h.balanced.with_buffers _ _, h.edges, h.fits, h.located, ⟨fun change hchange => ?_,
      h.buffered.sources⟩, h.pushed⟩, rfl, rfl⟩
    rcases ChangeBatch.exists_key_of_mem_update hchange with heq | ⟨source, hsource, heq⟩
    · rw [heq]
      exact hlocation
    · rw [← heq]
      exact h.buffered.targets source hsource
  | source port =>
    refine ⟨⟨h.balanced.with_buffers _ _, h.edges, h.fits, h.located, ⟨h.buffered.targets,
      fun change hchange => ?_⟩, h.pushed⟩, rfl, rfl⟩
    rcases ChangeBatch.exists_key_of_mem_update hchange with heq | ⟨source, hsource, heq⟩
    · rw [heq]
      exact hlocation
    · rw [← heq]
      exact h.buffered.sources source hsource

theorem Ready.with_pushed {tracker : Tracker S T} (h : tracker.Ready)
    {pushed_changes : ChangeBatch (Location × T)} (hpushed : pushed_changes.KeysIn tracker.builder.HasKey) :
    Ready { tracker with pushed_changes := pushed_changes } :=
  ⟨⟨⟨h.balanced.pointstamps, h.balanced.implications⟩, h.balanced.balance⟩, h.edges, h.fits, h.located,
    ⟨h.buffered.targets, h.buffered.sources⟩, hpushed⟩

theorem Ready.with_outputs {tracker : Tracker S T} (h : tracker.Ready)
    {output_changes : List (ChangeBatch T)} (hlength : output_changes.length = tracker.output_changes.length) :
    Ready { tracker with output_changes := output_changes } :=
  ⟨⟨⟨h.balanced.pointstamps, h.balanced.implications⟩, h.balanced.balance⟩, h.edges,
    fun location => (h.fits location).trans_eq hlength.symm, h.located,
    ⟨h.buffered.targets, h.buffered.sources⟩, h.pushed⟩

/-! ### Step 1 -/

theorem Applied.ready {tracker after : Tracker S T} {location : Location} {update : T × ℤ}
    {changes : List (T × ℤ)} (hready : tracker.Ready)
    (h : Applied tracker location update changes after) : after.Ready ∧ SameGraph tracker after := by
  refine ⟨⟨h.balanced hready.balanced, ?_, h.fits hready.fits, h.located hready.located, ⟨?_, ?_⟩, ?_⟩,
    h.builder, length_of_project_changes (hready.fits location) h.outputs⟩
  · rw [h.builder]
    exact hready.edges
  · rw [h.builder, h.targets]
    exact hready.buffered.targets
  · rw [h.builder, h.sources]
    exact hready.buffered.sources
  · rw [h.builder, h.pushed]
    exact hready.pushed

/-- Updates at locations of the graph go through. -/
theorem Ready.exists_apply_changes {tracker : Tracker S T} (h : tracker.Ready)
    (updates : List (Location × T × ℤ))
    (hupdates : ∀ update ∈ updates, tracker.builder.has_location update.1 = true) :
    ∃ after, apply_changes updates tracker = some after ∧ after.Ready ∧ SameGraph tracker after := by
  refine exists_foldlM (P := fun after : Tracker S T => after.Ready ∧ SameGraph tracker after)
    ⟨h, SameGraph.refl tracker⟩ ?_
  rintro before update hmem ⟨hready, hsame⟩
  obtain ⟨after, hafter⟩ := exists_apply_change hready.fits
    (by rw [hsame.builder]; exact hupdates update hmem) update.2
  obtain ⟨changes, happlied⟩ := applied_of_apply_change hready.balanced.toSettled hafter
  obtain ⟨hnext, hnextSame⟩ := happlied.ready hready
  exact ⟨after, hafter, hnext, hsame.trans hnextSame⟩

/-- Step 1 of a call goes through. -/
theorem Ready.exists_load {tracker : Tracker S T} (h : tracker.Ready) :
    ∃ loaded, tracker.load = some loaded ∧ loaded.Ready ∧ SameGraph tracker loaded := by
  have hstart : Ready { tracker with target_changes := tracker.target_changes.drain.2 } :=
    ⟨h.balanced.with_buffers _ _, h.edges, h.fits, h.located,
      ⟨fun _ hchange => absurd hchange List.not_mem_nil, h.buffered.sources⟩, h.pushed⟩
  obtain ⟨middle, hmiddle, hmiddleReady, hmiddleSame⟩ :=
    hstart.exists_apply_changes tracker.drained_targets (by
      intro update hupdate
      obtain ⟨change, hchange, rfl⟩ := List.mem_map.mp hupdate
      obtain ⟨source, hsource, hkey⟩ := ChangeBatch.exists_key_of_mem_compact hchange
      rw [← hkey]
      exact h.buffered.targets source hsource)
  have hbetween : Ready { middle with source_changes := middle.source_changes.drain.2 } :=
    ⟨hmiddleReady.balanced.with_buffers _ _, hmiddleReady.edges, hmiddleReady.fits, hmiddleReady.located,
      ⟨hmiddleReady.buffered.targets, fun _ hchange => absurd hchange List.not_mem_nil⟩,
      hmiddleReady.pushed⟩
  obtain ⟨loaded, hloaded, hloadedReady, hloadedSame⟩ :=
    hbetween.exists_apply_changes middle.drained_sources (by
      intro update hupdate
      obtain ⟨change, hchange, rfl⟩ := List.mem_map.mp hupdate
      obtain ⟨source, hsource, hkey⟩ := ChangeBatch.exists_key_of_mem_compact hchange
      rw [← hkey]
      exact hmiddleReady.buffered.sources source hsource)
  refine ⟨loaded, ?_, hloadedReady, hloadedSame.builder.trans hmiddleSame.builder,
    hloadedSame.outputs.trans hmiddleSame.outputs⟩
  unfold load
  rw [drain_target_changes_eq, hmiddle, Option.bind_some, drain_source_changes_eq]
  exact hloaded

/-! ### Step 2 -/

theorem Circulated.ready {tracker after : Tracker S T} {entry : (T × Location) × ℤ}
    {rest : Worklist (T × Location)} {changes : List (T × ℤ)} (hready : tracker.Ready)
    (hpopped : tracker.worklist.Popped entry rest) (h : Circulated tracker entry rest changes after) :
    after.Ready ∧ SameGraph tracker after := by
  refine ⟨⟨h.balanced hready.balanced hpopped, ?_, ?_, ?_, ⟨?_, ?_⟩, ?_⟩, h.builder, by rw [h.outputs]⟩
  · rw [h.builder]
    exact hready.edges
  · intro location
    rw [h.summaries, h.outputs]
    exact hready.fits location
  · exact h.located hready.edges.has_last hready.located hpopped
  · rw [h.builder, h.targets]
    exact hready.buffered.targets
  · rw [h.builder, h.sources]
    exact hready.buffered.sources
  · rw [h.builder, h.pushed]
    -- what is pushed is at the location of the entry
    have hfold := hready.pushed.foldl_update
      (changes.map fun change => ((entry.1.2, change.1), change.2)) (by
        intro update hupdate
        obtain ⟨change, _, rfl⟩ := List.mem_map.mp hupdate
        exact hready.located.popped hpopped)
    rwa [List.foldl_map] at hfold

/-- Any number of iterations goes through. -/
theorem Ready.exists_iterate {tracker : Tracker S T} (h : tracker.Ready) (count : ℕ) :
    ∃ last, tracker.iterate count = some last ∧ last.Ready ∧ SameGraph tracker last := by
  induction count generalizing tracker with
  | zero => exact ⟨tracker, rfl, h, SameGraph.refl tracker⟩
  | succ count ih =>
    cases hnext : tracker.worklist.next with
    | none => exact ⟨tracker, by rw [iterate, hnext], h, SameGraph.refl tracker⟩
    | some popped =>
      obtain ⟨entry, rest⟩ := popped
      have hpopped := Worklist.popped_of_next hnext
      obtain ⟨middle, hmiddle⟩ := exists_circulate_step rest (h.located.popped hpopped)
      obtain ⟨changes, hcirculated⟩ := circulated_of_circulate_step h.balanced.implications hmiddle
      obtain ⟨hready, hsame⟩ := hcirculated.ready h hpopped
      obtain ⟨last, hlast, hlastReady, hlastSame⟩ := ih hready
      refine ⟨last, ?_, hlastReady, hsame.trans hlastSame⟩
      rw [iterate, hnext]
      simp only [hmiddle, Option.bind_some]
      exact hlast

/-- A call returns, unless there is something left to do after the given number of iterations. -/
theorem Ready.propagate_all {tracker : Tracker S T} (h : tracker.Ready) (fuel : ℕ) :
    (∃ after, tracker.propagate_all fuel = some after ∧ after.Ready ∧ SameGraph tracker after) ∨
      tracker.propagate_all fuel = none ∧ ∃ loaded last, tracker.load = some loaded ∧
        loaded.iterate fuel = some last ∧ last.worklist.next.isSome := by
  obtain ⟨loaded, hloaded, hready, hsame⟩ := h.exists_load
  obtain ⟨last, hlast, hlastReady, hlastSame⟩ := hready.exists_iterate fuel
  have hcall : tracker.propagate_all fuel =
      if last.worklist.next.isNone then some last else none := by
    rw [propagate_all_eq_iterate, hloaded, Option.bind_some, hlast, Option.bind_some]
  cases hnext : last.worklist.next with
  | none =>
    rw [hnext, Option.isNone_none, if_pos rfl] at hcall
    exact Or.inl ⟨last, hcall, hlastReady, hsame.trans hlastSame⟩
  | some popped =>
    rw [hnext, Option.isNone_some, if_neg Bool.false_ne_true] at hcall
    exact Or.inr ⟨hcall, loaded, last, hloaded, hlast, by rw [hnext]; rfl⟩

end Tracker

end Timely
