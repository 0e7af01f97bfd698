/-
  Timely/Balance.lean
  ===================
  **The invariant of the worklist loop.**

  `Balanced` is an equation between counts.  For every location and time, the
  count of the implication plus what the worklist still holds for it equals the
  number of its reasons: one if the time is in the pointstamp frontier of the
  location, and one for every step that leads here from a time in an implication
  frontier.  Both kinds of propagation steps preserve it, so when the worklist
  is empty the implication frontiers are `Stable` under the steps of the graph.
-/
import Timely.Circulation
import Timely.Library.Propagation
import Timely.Library.Contribution

set_option linter.unusedSectionVars false

namespace Timely

open Library

variable {S T : Type}

/-! ### The steps of a graph -/

namespace Builder

section Steps

variable [PathSummary S T]

/-- One step of a timestamp between locations. -/
def step (builder : Builder S) (origin target : Location × T) : Prop :=
  Arc builder origin.1 origin.2 target.1 target.2

/-- Paths are finite sequences of steps. -/
theorem path_iff {builder : Builder S} {first last : Location} {time result : T} :
    Path builder first time last result ↔
      Relation.ReflTransGen builder.step (first, time) (last, result) := by
  constructor
  · intro h
    induction h with
    | nil => exact Relation.ReflTransGen.refl
    | snoc _ harc ih => exact ih.tail harc
  · intro h
    have hall : ∀ target : Location × T, Relation.ReflTransGen builder.step (first, time) target →
        Path builder first time target.1 target.2 := by
      intro target htarget
      induction htarget with
      | refl => exact Path.nil
      | tail _ hstep ih => exact ih.snoc hstep
    exact hall (last, result) h

variable [PartialOrder T]

/-- Steps keep the order of timestamps if the summaries of the graph do. -/
theorem step_monotone_of_summaries {builder : Builder S}
    (hmono : ∀ {summary : S} {early late result : T}, builder.HasSummary summary → early ≤ late →
      PathSummary.results_in summary late = some result →
      ∃ lower, PathSummary.results_in summary early = some lower ∧ lower ≤ result) :
    StepMonotone (builder.step (T := T)) := by
  intro first last early late result hle hstep
  unfold step at hstep ⊢
  cases hstep with
  | edge _ htargets htarget => exact ⟨early, Arc.edge early htargets htarget, hle⟩
  | summary houtputs hantichain hsummary hvalue =>
    obtain ⟨lower, hlower, hbelow⟩ := hmono ⟨_, _, _, _, _, houtputs, hantichain, hsummary⟩ hle hvalue
    exact ⟨lower, Arc.summary houtputs hantichain hsummary hlower, hbelow⟩

theorem step_monotone [MonotoneSummary S T] (builder : Builder S) :
    StepMonotone (builder.step (T := T)) :=
  step_monotone_of_summaries fun _ => MonotoneSummary.results_in_mono _

variable [DecidableEq S] [AdvancingSummary S T]

/-- Steps never go back in time. -/
theorem le_of_path {builder : Builder S} {origin target : Location × T}
    (h : Relation.ReflTransGen builder.step origin target) : origin.2 ≤ target.2 := by
  induction h with
  | refl => exact le_rfl
  | tail _ hstep ih =>
    rcases Arc.default_or_lt hstep with ⟨_, heq⟩ | hlt
    · exact ih.trans (le_of_eq heq)
    · exact ih.trans hlt.le

/-- In a ranked graph no time comes back to where it was. -/
theorem Ranked.wellFounded [Finite T] {builder : Builder S} {rank : Location → ℕ} {bound : ℕ}
    (h : builder.Ranked rank bound) : WellFounded (builder.step (T := T)) := by
  refine wellFounded_of_rank rank fun {origin target} hstep => ?_
  rcases Arc.default_or_lt hstep with ⟨harc, heq⟩ | hlt
  · exact Or.inr ⟨heq, h.lt_of_arc harc⟩
  · exact Or.inl hlt

end Steps

end Builder

namespace Tracker

variable [PartialOrder T] [DecidableLE T] [DecidableEq T] [Ord T] [LinearExtension T]
  [PathSummary S T]

/-! ### Reasons for an implication -/

/-- The number of steps into a location and time from the implication frontiers. -/
def support (tracker : Tracker S T) (location : Location) (time : T) : ℤ :=
  contributions tracker.builder.locations.toFinset
    (fun origin => (tracker.implications_at origin).frontier)
    fun origin start => ((tracker.builder.implied origin start).count (time, location) : ℤ)

theorem frontier_eq_nil_of_not_mem {tracker : Tracker S T} {location : Location}
    (h : location ∉ tracker.builder.locations.toFinset) :
    (tracker.implications_at location).frontier = [] := by
  apply frontier_eq_nil_of_port_eq_none
  rw [List.mem_toFinset, Builder.mem_locations_iff, ← tracker.port_isSome] at h
  simpa using h

theorem support_nonneg (tracker : Tracker S T) (location : Location) (time : T) :
    0 ≤ tracker.support location time :=
  contributions_nonneg fun _ _ => Int.natCast_nonneg _

/-- A location and time has support exactly when a step leads to it. -/
theorem support_pos_iff {tracker : Tracker S T} {location : Location} {time : T} :
    0 < tracker.support location time ↔
      ∃ origin start, start ∈ (tracker.implications_at origin).frontier ∧
        tracker.builder.step (origin, start) (location, time) := by
  unfold support
  rw [contributions_pos_iff (fun _ _ => Int.natCast_nonneg _)
    fun origin h => frontier_eq_nil_of_not_mem h]
  simp only [Int.natCast_pos, List.count_pos_iff, Builder.mem_implied]
  rfl

/-- One iteration moves the support of every location and time by what it sent there. -/
theorem Circulated.support_eq {tracker after : Tracker S T} {entry : (T × Location) × ℤ}
    {rest : Worklist (T × Location)} {changes : List (T × ℤ)}
    (hsettled : ∀ location, (tracker.implications_at location).Settled)
    (h : Circulated tracker entry rest changes after) (location : Location) (time : T) :
    after.support location time = tracker.support location time +
      tally (scatter (tracker.builder.implied entry.1.2) changes) (time, location) := by
  unfold support
  rw [h.builder, tally_scatter]
  refine contributions_change ?_ ?_ (hsettled _).frontier.nodup
    h.updated.settled.frontier.nodup h.updated.report
  · intro hnone
    refine ⟨frontier_eq_nil_of_not_mem hnone, frontier_eq_nil_of_not_mem ?_⟩
    rwa [h.builder]
  · intro other hne
    rw [h.implications other hne]

/-! ### The balance -/

/-- Every implication has as many reasons as its count and the worklist say.  Of the pointstamps
    only the frontiers matter. -/
structure Supported (tracker : Tracker S T) : Prop where
  implications : ∀ location, (tracker.implications_at location).Settled
  balance : ∀ location time,
    (tracker.implications_at location).count_for time +
        tally tracker.worklist.entries (time, location) =
      (if time ∈ (tracker.pointstamps_at location).frontier then 1 else 0) +
        tracker.support location time

/-- The same, with integer counts behind the frontiers of the pointstamps. -/
structure Balanced (tracker : Tracker S T) : Prop extends tracker.Settled, tracker.Supported

theorem Applied.settled {tracker after : Tracker S T} {location : Location} {update : T × ℤ}
    {changes : List (T × ℤ)} (hsettled : tracker.Settled)
    (h : Applied tracker location update changes after) : after.Settled where
  pointstamps other := by
    by_cases heq : other = location
    · subst heq
      exact h.updated.settled
    · rw [h.pointstamps other heq]
      exact hsettled.pointstamps other
  implications other := by
    rw [h.implications other]
    exact hsettled.implications other

theorem Circulated.implications_settled {tracker after : Tracker S T} {entry : (T × Location) × ℤ}
    {rest : Worklist (T × Location)} {changes : List (T × ℤ)}
    (hsettled : ∀ location, (tracker.implications_at location).Settled)
    (h : Circulated tracker entry rest changes after) (other : Location) :
    (after.implications_at other).Settled := by
  by_cases heq : other = entry.1.2
  · subst heq
    exact h.updated.settled
  · rw [h.implications other heq]
    exact hsettled other

theorem Circulated.settled {tracker after : Tracker S T} {entry : (T × Location) × ℤ}
    {rest : Worklist (T × Location)} {changes : List (T × ℤ)} (hsettled : tracker.Settled)
    (h : Circulated tracker entry rest changes after) : after.Settled where
  pointstamps other := by
    rw [h.pointstamps other]
    exact hsettled.pointstamps other
  implications := h.implications_settled hsettled.implications

/-- A buffered update keeps the balance: each change of the pointstamp frontier goes to the
    worklist. -/
theorem Seeded.supported {tracker after : Tracker S T} {location : Location}
    {changes : List (T × ℤ)} (hsupported : tracker.Supported)
    (h : Seeded tracker location changes after) : after.Supported where
  implications other := by
    rw [h.implications other]
    exact hsupported.implications other
  balance other time := by
    have hold := hsupported.balance other time
    have hsupport : after.support other time = tracker.support other time := by
      unfold support
      simp only [h.builder, h.implications]
    rw [h.implications other, tally_perm h.worklist, tally_append, hsupport]
    by_cases heq : other = location
    · subst heq
      have hsent : tally (changes.map fun change => ((change.1, other), change.2)) (time, other) =
          tally changes time :=
        tally_map_injective (f := fun start : T => (start, other))
          (fun _ _ hpair => (Prod.mk.inj hpair).1) changes time
      have hreport := h.report time
      rw [hsent]
      omega
    · have hnone : tally (changes.map fun change => ((change.1, location), change.2))
          (time, other) = 0 := by
        apply tally_eq_zero_of_not_mem
        intro entry hentry hkey
        obtain ⟨change, _, rfl⟩ := List.mem_map.mp hentry
        exact heq (Prod.mk.inj hkey).2.symm
      rw [hnone, h.pointstamps other heq, zero_add]
      exact hold

theorem Applied.balanced {tracker after : Tracker S T} {location : Location} {update : T × ℤ}
    {changes : List (T × ℤ)} (hbalanced : tracker.Balanced)
    (h : Applied tracker location update changes after) : after.Balanced where
  toSettled := h.settled hbalanced.toSettled
  balance := (h.toSeeded.supported hbalanced.toSupported).balance

/-- The count an iteration gives to its entry is the number of its reasons. -/
theorem Circulated.count_eq {tracker after : Tracker S T} {entry : (T × Location) × ℤ}
    {rest : Worklist (T × Location)} {changes : List (T × ℤ)} (hbalanced : tracker.Balanced)
    (hpopped : tracker.worklist.Popped entry rest)
    (h : Circulated tracker entry rest changes after) :
    (after.implications_at entry.1.2).count_for entry.1.1 =
      (if entry.1.1 ∈ (tracker.pointstamps_at entry.1.2).frontier then 1 else 0) +
        tracker.support entry.1.2 entry.1.1 := by
  have hold := hbalanced.balance entry.1.2 entry.1.1
  have htotal := hpopped.total
  rw [h.updated.count, tally_cons, if_pos rfl, tally_nil, add_zero]
  rw [← hold]
  exact congrArg _ htotal.symm

/-- An iteration keeps the balance: what leaves the worklist enters a count, and what the
    frontier change sends out is new support. -/
theorem Circulated.supported {tracker after : Tracker S T} {entry : (T × Location) × ℤ}
    {rest : Worklist (T × Location)} {changes : List (T × ℤ)} (hsupported : tracker.Supported)
    (hpopped : tracker.worklist.Popped entry rest)
    (h : Circulated tracker entry rest changes after) : after.Supported where
  implications := h.implications_settled hsupported.implications
  balance other time := by
    have hold := hsupported.balance other time
    have hrest := hpopped.tally_rest (time, other)
    rw [h.support_eq hsupported.implications, tally_perm h.worklist, tally_append,
      h.pointstamps other, hrest]
    by_cases heq : other = entry.1.2
    · subst heq
      rw [h.updated.count, tally_cons, tally_nil, add_zero]
      by_cases htime : entry.1.1 = time
      · rw [if_pos htime, if_pos (by rw [← htime])]
        omega
      · rw [if_neg htime, if_neg fun hkey => htime (congrArg Prod.fst hkey)]
        omega
    · rw [h.implications other heq, if_neg fun hkey => heq (congrArg Prod.snd hkey).symm]
      omega

theorem Circulated.balanced {tracker after : Tracker S T} {entry : (T × Location) × ℤ}
    {rest : Worklist (T × Location)} {changes : List (T × ℤ)} (hbalanced : tracker.Balanced)
    (hpopped : tracker.worklist.Popped entry rest)
    (h : Circulated tracker entry rest changes after) : after.Balanced where
  toSettled := h.settled hbalanced.toSettled
  balance := (h.supported hbalanced.toSupported hpopped).balance

/-! ### Trackers at rest -/

/-- Balanced, with nothing left on the worklist. -/
structure Quiet (tracker : Tracker S T) : Prop extends tracker.Balanced where
  worklist_nil : tracker.worklist.entries = []

/-- At rest the implication frontiers are stable under the steps of the graph. -/
theorem Quiet.stable {tracker : Tracker S T} (h : tracker.Quiet) :
    Stable tracker.builder.step
      (fun location time => time ∈ (tracker.pointstamps_at location).frontier)
      (fun location => (tracker.implications_at location).frontier) where
  frontier location := by
    refine (h.implications location).frontier.congr fun time => ?_
    have hbalance := h.balance location time
    rw [h.worklist_nil, tally_nil, add_zero] at hbalance
    rw [← support_pos_iff, hbalance]
    have hnonneg := tracker.support_nonneg location time
    by_cases hmem : time ∈ (tracker.pointstamps_at location).frontier
    · rw [if_pos hmem]
      exact ⟨fun _ => Or.inl hmem, fun _ => by omega⟩
    · rw [if_neg hmem, zero_add]
      exact ⟨Or.inr, fun hor => hor.resolve_left hmem⟩

end Tracker

end Timely
