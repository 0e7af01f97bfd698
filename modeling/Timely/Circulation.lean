/-
  Timely/Circulation.lean
  =======================
  **What propagation does to a tracker.**

  `Applied` and `Circulated` say once what one buffered update and one iteration
  of the worklist do to every part of a tracker.  The invariant `Balanced` is the
  equation the worklist loop maintains: the count of an implication, plus what
  is still on the worklist for it, is the number of reasons it has, namely the
  pointstamp frontier of its own port and the implication frontiers of the ports
  one step upstream.
-/
import Timely.Tracker
import Timely.Acyclic

set_option linter.unusedSectionVars false

namespace Timely

open Library

variable {S T : Type} [PartialOrder T] [DecidableLE T] [DecidableEq T] [Ord T]

namespace Tracker

/-! ### Views of a tracker -/

/-- The pointstamps at a location; empty where there is no port. -/
def pointstamps_at (tracker : Tracker S T) (location : Location) : MutableAntichain T :=
  ((tracker.port location).map PortInformation.pointstamps).getD MutableAntichain.new

/-- The implications at a location; empty where there is no port. -/
def implications_at (tracker : Tracker S T) (location : Location) : MutableAntichain T :=
  ((tracker.port location).map PortInformation.implications).getD MutableAntichain.new

/-- The summaries from a location to the scope outputs. -/
def summaries_at (tracker : Tracker S T) (location : Location) : List (Antichain S) :=
  ((tracker.port location).map PortInformation.output_summaries).getD []

/-- The buffered changes of the count of a time at a location. -/
def buffered (tracker : Tracker S T) (location : Location) (time : T) : ℤ :=
  match location.port with
  | .target port => tracker.target_changes.value (⟨location.node, port⟩, time)
  | .source port => tracker.source_changes.value (⟨location.node, port⟩, time)

/-- No antichain of the tracker has pending updates. -/
structure Settled (tracker : Tracker S T) : Prop where
  pointstamps : ∀ location, (tracker.pointstamps_at location).Settled
  implications : ∀ location, (tracker.implications_at location).Settled

theorem pointstamps_at_of_port {tracker : Tracker S T} {location : Location}
    {port : PortInformation S T} (h : tracker.port location = some port) :
    tracker.pointstamps_at location = port.pointstamps := by
  simp [pointstamps_at, h]

theorem implications_at_of_port {tracker : Tracker S T} {location : Location}
    {port : PortInformation S T} (h : tracker.port location = some port) :
    tracker.implications_at location = port.implications := by
  simp [implications_at, h]

theorem summaries_at_of_port {tracker : Tracker S T} {location : Location}
    {port : PortInformation S T} (h : tracker.port location = some port) :
    tracker.summaries_at location = port.output_summaries := by
  simp [summaries_at, h]

/-! ### Trackers with the same ports -/

section Congr

variable {first second : Tracker S T} (h : second.per_operator = first.per_operator)

include h

theorem port_congr (location : Location) : second.port location = first.port location := by
  unfold port
  rw [h]

theorem pointstamps_at_congr (location : Location) :
    second.pointstamps_at location = first.pointstamps_at location := by
  unfold pointstamps_at
  rw [port_congr h]

theorem implications_at_congr (location : Location) :
    second.implications_at location = first.implications_at location := by
  unfold implications_at
  rw [port_congr h]

theorem summaries_at_congr (location : Location) :
    second.summaries_at location = first.summaries_at location := by
  unfold summaries_at
  rw [port_congr h]

end Congr

/-! ### Views of a tracker with one port changed -/

section Changed

variable {tracker : Tracker S T} {location : Location}

theorem port_modify_port (tracker : Tracker S T) (location other : Location)
    (change : PortInformation S T → PortInformation S T) :
    (tracker.modify_port location change).port other =
      if location = other then (tracker.port other).map change else tracker.port other :=
  lookup_modify_port _ _ _ _

theorem pointstamps_at_set_pointstamps (h : (tracker.port location).isSome)
    (pointstamps : MutableAntichain T) (other : Location) :
    (tracker.set_pointstamps location pointstamps).pointstamps_at other =
      if location = other then pointstamps else tracker.pointstamps_at other := by
  unfold pointstamps_at set_pointstamps
  rw [port_modify_port]
  by_cases heq : location = other
  · subst heq
    obtain ⟨port, hport⟩ := Option.isSome_iff_exists.mp h
    simp [hport]
  · simp [heq]

theorem implications_at_set_implications (h : (tracker.port location).isSome)
    (implications : MutableAntichain T) (other : Location) :
    (tracker.set_implications location implications).implications_at other =
      if location = other then implications else tracker.implications_at other := by
  unfold implications_at set_implications
  rw [port_modify_port]
  by_cases heq : location = other
  · subst heq
    obtain ⟨port, hport⟩ := Option.isSome_iff_exists.mp h
    simp [hport]
  · simp [heq]

/-- A change of a port that keeps a part of it keeps every view of that part. -/
theorem view_modify_port {β : Type} (view : PortInformation S T → β)
    (change : PortInformation S T → PortInformation S T) (h : ∀ port, view (change port) = view port)
    (other : Location) :
    ((tracker.modify_port location change).port other).map view =
      (tracker.port other).map view := by
  rw [port_modify_port]
  split
  · rw [Option.map_map]
    congr 1
    exact funext h
  · rfl

theorem implications_at_set_pointstamps (pointstamps : MutableAntichain T) (other : Location) :
    (tracker.set_pointstamps location pointstamps).implications_at other =
      tracker.implications_at other := by
  exact congrArg (fun view => view.getD MutableAntichain.new)
    (view_modify_port PortInformation.implications (fun port => { port with pointstamps := pointstamps })
      (fun _ => rfl) other)

theorem pointstamps_at_set_implications (implications : MutableAntichain T) (other : Location) :
    (tracker.set_implications location implications).pointstamps_at other =
      tracker.pointstamps_at other := by
  exact congrArg (fun view => view.getD MutableAntichain.new)
    (view_modify_port PortInformation.pointstamps (fun port => { port with implications := implications })
      (fun _ => rfl) other)

theorem summaries_at_set_pointstamps (pointstamps : MutableAntichain T) (other : Location) :
    (tracker.set_pointstamps location pointstamps).summaries_at other =
      tracker.summaries_at other := by
  exact congrArg (fun view : Option (List (Antichain S)) => view.getD [])
    (view_modify_port PortInformation.output_summaries (fun port => { port with pointstamps := pointstamps })
      (fun _ => rfl) other)

theorem summaries_at_set_implications (implications : MutableAntichain T) (other : Location) :
    (tracker.set_implications location implications).summaries_at other =
      tracker.summaries_at other := by
  exact congrArg (fun view : Option (List (Antichain S)) => view.getD [])
    (view_modify_port PortInformation.output_summaries (fun port => { port with implications := implications })
      (fun _ => rfl) other)

theorem pointstamps_at_set_summaries (summaries : List (Antichain S)) (other : Location) :
    (tracker.set_summaries location summaries).pointstamps_at other =
      tracker.pointstamps_at other := by
  exact congrArg (fun view => view.getD MutableAntichain.new)
    (view_modify_port PortInformation.pointstamps
      (fun port : PortInformation S T => { port with output_summaries := summaries })
      (fun _ => rfl) other)

theorem implications_at_set_summaries (summaries : List (Antichain S)) (other : Location) :
    (tracker.set_summaries location summaries).implications_at other =
      tracker.implications_at other := by
  exact congrArg (fun view => view.getD MutableAntichain.new)
    (view_modify_port PortInformation.implications
      (fun port : PortInformation S T => { port with output_summaries := summaries })
      (fun _ => rfl) other)

theorem summaries_at_set_summaries (summaries : List (Antichain S)) (other : Location) :
    (tracker.set_summaries location summaries).summaries_at other =
      if location = other ∧ (tracker.port other).isSome then summaries
      else tracker.summaries_at other := by
  unfold summaries_at set_summaries
  rw [port_modify_port]
  by_cases heq : location = other
  · subst heq
    cases tracker.port location with
    | none => simp
    | some port => simp
  · simp [heq]

end Changed

/-- Where no port is, the frontiers are empty. -/
theorem frontier_eq_nil_of_port_eq_none {tracker : Tracker S T} {location : Location}
    (h : tracker.port location = none) : (tracker.implications_at location).frontier = [] := by
  simp [implications_at, h, MutableAntichain.new]

variable [LinearExtension T] [PathSummary S T]

/-! ### One buffered update -/

/-- Send several frontier changes along the summaries to each scope output. -/
def project_changes (changes : List (T × ℤ)) (output_summaries : List (Antichain S))
    (output_changes : List (ChangeBatch T)) : Option (List (ChangeBatch T)) :=
  changes.foldlM (fun output_changes change => project_change change output_summaries output_changes)
    output_changes

/-- Reacting to a list of changes collects them on the worklist. -/
theorem foldlM_record_change (location : Location) (output_summaries : List (Antichain S))
    (changes : List (T × ℤ)) (tracker : Tracker S T) :
    changes.foldlM (record_change location output_summaries) tracker =
      (project_changes changes output_summaries tracker.output_changes).map fun output_changes =>
        { tracker with
          total_counts := tracker.total_counts + (changes.map Prod.snd).sum
          output_changes := output_changes
          worklist := (changes.map fun change => ((change.1, location), change.2)).foldl
            Worklist.push tracker.worklist } := by
  induction changes generalizing tracker with
  | nil => simp [project_changes]
  | cons change changes ih =>
    rw [List.foldlM_cons]
    unfold project_changes
    rw [List.foldlM_cons]
    unfold record_change
    cases project_change change output_summaries tracker.output_changes with
    | none => rfl
    | some output_changes =>
      simp only [Option.map_some, Option.bind_eq_bind, Option.bind_some]
      have hrest := ih
        { tracker with
          total_counts := tracker.total_counts + change.2
          output_changes := output_changes
          worklist := tracker.worklist.push ((change.1, location), change.2) }
      unfold record_change at hrest
      rw [hrest]
      simp only [project_changes, List.map_cons, List.sum_cons, List.foldl_cons, add_assoc]

/-- What one update at a location does to all but the counts there: the frontier of the pointstamps
    changes as reported, and the changes are put on the worklist. -/
structure Seeded (tracker : Tracker S T) (location : Location) (changes : List (T × ℤ))
    (after : Tracker S T) : Prop where
  builder : after.builder = tracker.builder
  exists_port : tracker.builder.has_location location = true
  report : ∀ time, tally changes time =
    (if time ∈ (after.pointstamps_at location).frontier then 1 else 0) -
      (if time ∈ (tracker.pointstamps_at location).frontier then 1 else 0)
  pointstamps : ∀ other, other ≠ location → after.pointstamps_at other = tracker.pointstamps_at other
  implications : ∀ other, after.implications_at other = tracker.implications_at other
  summaries : ∀ other, after.summaries_at other = tracker.summaries_at other
  worklist : after.worklist.entries.Perm
    ((changes.map fun change => ((change.1, location), change.2)) ++ tracker.worklist.entries)
  outputs : project_changes changes (tracker.summaries_at location) tracker.output_changes =
    some after.output_changes
  pushed : after.pushed_changes = tracker.pushed_changes
  targets : after.target_changes = tracker.target_changes
  sources : after.source_changes = tracker.source_changes

/-- What one update at a location does, with integer counts. -/
structure Applied (tracker : Tracker S T) (location : Location) (update : T × ℤ)
    (changes : List (T × ℤ)) (after : Tracker S T) : Prop
    extends Seeded tracker location changes after where
  updated : MutableAntichain.Updated (tracker.pointstamps_at location) [update] changes
    (after.pointstamps_at location)

/-- Reacting to the reported changes of the pointstamps at a location. -/
theorem seeded_of_foldlM {tracker after : Tracker S T} {location : Location} {port : PortInformation S T}
    (hport : tracker.port location = some port) {changes : List (T × ℤ)} {pointstamps : MutableAntichain T}
    (hreport : ∀ time, tally changes time = (if time ∈ pointstamps.frontier then 1 else 0) -
      (if time ∈ port.pointstamps.frontier then 1 else 0))
    (h : changes.foldlM (record_change location port.output_summaries)
      (tracker.set_pointstamps location pointstamps) = some after) :
    Seeded tracker location changes after ∧ after.pointstamps_at location = pointstamps ∧
      after.total_counts = tracker.total_counts + (changes.map Prod.snd).sum := by
  rw [foldlM_record_change, Option.map_eq_some_iff] at h
  obtain ⟨output_changes, houtputs, hafter⟩ := h
  have hports : after.per_operator = (tracker.set_pointstamps location pointstamps).per_operator := by
    rw [← hafter]
  have hsome : (tracker.port location).isSome := by rw [hport]; rfl
  have hchanged : after.pointstamps_at location = pointstamps := by
    rw [pointstamps_at_congr hports, pointstamps_at_set_pointstamps hsome, if_pos rfl]
  refine ⟨⟨?_, ?_, ?_, ?_, fun other => ?_, fun other => ?_, ?_, ?_, ?_, ?_, ?_⟩, hchanged, ?_⟩
  · rw [← hafter]
    rfl
  · rwa [← port_isSome]
  · intro time
    rw [hchanged, pointstamps_at_of_port hport]
    exact hreport time
  · intro other hne
    rw [pointstamps_at_congr hports, pointstamps_at_set_pointstamps hsome, if_neg (Ne.symm hne)]
  · rw [implications_at_congr hports, implications_at_set_pointstamps]
  · rw [summaries_at_congr hports, summaries_at_set_pointstamps]
  · rw [← hafter]
    exact Worklist.perm_foldl_push _ _
  · rw [summaries_at_of_port hport, ← hafter]
    exact houtputs
  all_goals rw [← hafter]; rfl

/-- An update that goes through is applied, and the total follows the changes it causes. -/
theorem applied_and_counted_of_apply_change {tracker after : Tracker S T} (hsettled : tracker.Settled)
    {location : Location} {update : T × ℤ} (h : tracker.apply_change location update = some after) :
    ∃ changes, Applied tracker location update changes after ∧
      after.total_counts = tracker.total_counts + (changes.map Prod.snd).sum := by
  unfold apply_change at h
  split at h
  case h_1 => cases h
  case h_2 port hport =>
    have hupdated := (hsettled.pointstamps location).update_iter [update]
    rw [pointstamps_at_of_port hport] at hupdated
    obtain ⟨hseeded, hchanged, htotal⟩ := seeded_of_foldlM hport hupdated.report h
    refine ⟨_, ⟨hseeded, ?_⟩, htotal⟩
    rwa [pointstamps_at_of_port hport, hchanged]

theorem applied_of_apply_change {tracker after : Tracker S T} (hsettled : tracker.Settled)
    {location : Location} {update : T × ℤ} (h : tracker.apply_change location update = some after) :
    ∃ changes, Applied tracker location update changes after := by
  obtain ⟨changes, happlied, _⟩ := applied_and_counted_of_apply_change hsettled h
  exact ⟨changes, happlied⟩

/-! ### One iteration of the worklist -/

/-- Circulating a list of changes sends each along every step from the location. -/
theorem foldl_circulate_change (location : Location) (changes : List (T × ℤ))
    (tracker : Tracker S T) :
    changes.foldl (circulate_change location) tracker =
      { tracker with
        worklist := (scatter (tracker.builder.implied location) changes).foldl Worklist.push
          tracker.worklist
        pushed_changes := changes.foldl
          (fun kept change => kept.update (location, change.1) change.2) tracker.pushed_changes } := by
  induction changes generalizing tracker with
  | nil => rfl
  | cons change changes ih =>
    rw [List.foldl_cons, ih]
    simp only [circulate_change, scatter, List.flatMap_cons, List.foldl_append, List.foldl_cons]

/-- What one iteration does: it changes the implications at one location, and sends the
    changes of their frontier one step further. -/
structure Circulated (tracker : Tracker S T) (entry : (T × Location) × ℤ)
    (rest : Worklist (T × Location)) (changes : List (T × ℤ)) (after : Tracker S T) : Prop where
  builder : after.builder = tracker.builder
  updated : MutableAntichain.Updated (tracker.implications_at entry.1.2) [(entry.1.1, entry.2)]
    changes (after.implications_at entry.1.2)
  implications : ∀ other, other ≠ entry.1.2 →
    after.implications_at other = tracker.implications_at other
  pointstamps : ∀ other, after.pointstamps_at other = tracker.pointstamps_at other
  summaries : ∀ other, after.summaries_at other = tracker.summaries_at other
  worklist : after.worklist.entries.Perm
    (scatter (tracker.builder.implied entry.1.2) changes ++ rest.entries)
  pushed : after.pushed_changes = changes.foldl
    (fun kept change => kept.update (entry.1.2, change.1) change.2) tracker.pushed_changes
  outputs : after.output_changes = tracker.output_changes
  targets : after.target_changes = tracker.target_changes
  sources : after.source_changes = tracker.source_changes

theorem circulated_of_circulate_step {tracker after : Tracker S T}
    (hsettled : ∀ location, (tracker.implications_at location).Settled)
    {entry : (T × Location) × ℤ} {rest : Worklist (T × Location)}
    (h : tracker.circulate_step entry rest = some after) :
    ∃ changes, Circulated tracker entry rest changes after := by
  unfold circulate_step at h
  by_cases hzero : entry.2 = 0
  · -- no net change: nothing but the worklist moves
    simp only [hzero, if_true, Option.some.injEq] at h
    subst h
    refine ⟨[], rfl, ⟨hsettled _, ?_, ?_, List.Pairwise.nil, by simp⟩,
      fun _ _ => rfl, fun _ => rfl, fun _ => rfl, List.Perm.refl _, rfl, rfl, rfl, rfl⟩
    · intro time
      rw [hzero, tally_cons, ite_self, tally_nil, add_zero, add_zero]
      rfl
    · intro time
      rw [tally_nil]
      exact (sub_self _).symm
  · simp only [if_neg hzero] at h
    split at h
    case h_1 => cases h
    case h_2 port hport =>
      have hsome : (tracker.port entry.1.2).isSome := by rw [hport]; rfl
      have hupdated := (hsettled entry.1.2).update_iter [(entry.1.1, entry.2)]
      rw [implications_at_of_port hport] at hupdated
      rw [foldl_circulate_change, Option.some.injEq] at h
      have hports : after.per_operator = (tracker.set_implications entry.1.2
          (port.implications.update_iter [(entry.1.1, entry.2)]).2).per_operator := by
        rw [← h]
        rfl
      refine ⟨(port.implications.update_iter [(entry.1.1, entry.2)]).1, ?_, ?_, ?_, fun other => ?_,
        fun other => ?_, ?_, ?_, ?_, ?_, ?_⟩
      · rw [← h]
        rfl
      · rwa [implications_at_of_port hport, implications_at_congr hports,
          implications_at_set_implications hsome, if_pos rfl]
      · intro other hne
        rw [implications_at_congr hports, implications_at_set_implications hsome, if_neg (Ne.symm hne)]
      · rw [pointstamps_at_congr hports, pointstamps_at_set_implications]
      · rw [summaries_at_congr hports, summaries_at_set_implications]
      · rw [← h]
        exact Worklist.perm_foldl_push _ _
      all_goals rw [← h]; rfl

end Tracker

end Timely
