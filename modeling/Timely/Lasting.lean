/-
  Timely/Lasting.lean
  ===================
  **Implications that cover, and implications that last**
  (`timely/src/progress/reachability.rs`, `Tracker::propagate_all`).

  At rest the implications cover all that the counted pointstamps could result in.
  What they list arises from the pointstamps that have been counted at some time.  A
  time on a cycle that leaves timestamps as they are supports itself: once it is
  listed, and none earlier can arise, no call takes it away.
-/
import Timely.CouldResultIn
import Mathlib.Order.WellFoundedSet

set_option linter.unusedSectionVars false

namespace Timely

open Library

variable {S T : Type} [PartialOrder T] [DecidableLE T] [DecidableEq T] [Ord T] [LinearExtension T]
  [PathSummary S T]

namespace Tracker

/-- The implications cover all that a counted pointstamp could result in, and all that a later one at its
    location could. -/
theorem Quiet.covers_count {tracker : Tracker S T} (h : tracker.Quiet)
    (hmono : StepMonotone (tracker.builder.step (T := T))) {origin target : Location × T} {early : T}
    (hcount : 0 < (tracker.pointstamps_at origin.1).count_for early) (hle : early ≤ origin.2)
    (hcould : tracker.builder.CouldResultIn origin target) :
    Covers (fun location => (tracker.implications_at location).frontier) target.1 target.2 := by
  obtain ⟨least, hleast, hbelow⟩ := (h.pointstamps origin.1).frontier.covers early hcount
  obtain ⟨time, hpath, htime⟩ := hcould
  have hseed : Covers (fun location => (tracker.implications_at location).frontier) origin.1 origin.2 :=
    Covers.mono (h.stable.covers_seed hleast) (hbelow.trans hle)
  have hreached := h.stable.covers_path hmono hseed (Builder.path_iff.mp hpath)
  exact Covers.mono hreached htime

theorem Quiet.covers {tracker : Tracker S T} (h : tracker.Quiet)
    (hadvances : tracker.builder.Advances T) {origin target : Location × T}
    (hcount : 0 < (tracker.pointstamps_at origin.1).count_for origin.2)
    (hcould : tracker.builder.CouldResultIn origin target) :
    Covers (fun location => (tracker.implications_at location).frontier) target.1 target.2 :=
  h.covers_count hadvances.step_monotone hcount le_rfl hcould

theorem Quiet.covers_could {tracker : Tracker S T} (h : tracker.Quiet)
    (hadvances : tracker.builder.Advances T) {origin target : Location × T}
    (hcovers : Covers (fun location => (tracker.implications_at location).frontier) origin.1 origin.2)
    (hcould : tracker.builder.CouldResultIn origin target) :
    Covers (fun location => (tracker.implications_at location).frontier) target.1 target.2 := by
  obtain ⟨time, hpath, htime⟩ := hcould
  have hreached : Covers (fun location => (tracker.implications_at location).frontier) target.1 time :=
    h.stable.covers_path hadvances.step_monotone hcovers
      (Builder.path_iff.mp hpath)
  exact hreached.mono htime

/-! ### What is listed arises -/

section Origins

variable {origins : Location × T → Prop}

variable (origins) in
/-- Whatever has an implication arises from the given pointstamps. -/
def Confined (tracker : Tracker S T) : Prop :=
  ∀ location time, 0 < (tracker.implications_at location).count_for time →
    tracker.builder.Arises origins (location, time)

variable (origins) in
/-- The earliest times that arise on cycles are listed. -/
def Keeps (tracker : Tracker S T) : Prop :=
  ∀ location time, tracker.builder.Cyclic T location →
    tracker.builder.Earliest origins location time →
    time ∈ (tracker.implications_at location).frontier

theorem Confined.arises_of_mem {tracker : Tracker S T} (h : tracker.Confined origins)
    (hsettled : tracker.Settled) {location : Location} {time : T}
    (hmem : time ∈ (tracker.implications_at location).frontier) :
    tracker.builder.Arises origins (location, time) :=
  h location time ((hsettled.implications location).frontier.present_of_mem time hmem)

/-- What an iteration gives a count to arises, if the pointstamps do. -/
theorem Confined.circulated {tracker after : Tracker S T} {entry : (T × Location) × ℤ}
    {rest : Worklist (T × Location)} {changes : List (T × ℤ)} (h : tracker.Confined origins)
    (hadvances : tracker.builder.Advances T) (hbalanced : tracker.Balanced)
    (hseeds : ∀ location time, 0 < (tracker.pointstamps_at location).count_for time →
      tracker.builder.Arises origins (location, time))
    (hpopped : tracker.worklist.Popped entry rest)
    (hstep : Circulated tracker entry rest changes after) : after.Confined origins := by
  intro location time hpos
  rw [hstep.builder]
  by_cases hlocation : location = entry.1.2
  · by_cases htime : time = entry.1.1
    · -- the count of the entry has a pointstamp or a step as its reason
      rw [hlocation, htime] at hpos ⊢
      rw [hstep.count_eq hbalanced hpopped] at hpos
      by_cases hseed : entry.1.1 ∈ (tracker.pointstamps_at entry.1.2).frontier
      · exact hseeds _ _ ((hbalanced.pointstamps _).frontier.present_of_mem _ hseed)
      · rw [if_neg hseed, zero_add] at hpos
        obtain ⟨origin, start, hstart, harc⟩ := support_pos_iff.mp hpos
        exact (h.arises_of_mem hbalanced.toSettled hstart).could hadvances
          (Builder.CouldResultIn.of_step harc)
    · rw [hlocation, hstep.updated.count, tally_cons, if_neg (Ne.symm htime), tally_nil, add_zero,
        add_zero] at hpos
      rw [hlocation]
      exact h _ _ hpos
  · rw [hstep.implications location hlocation] at hpos
    exact h _ _ hpos

/-- An iteration keeps what is listed with reasons that stay. -/
theorem Keeps.circulated {tracker after : Tracker S T} {entry : (T × Location) × ℤ}
    {rest : Worklist (T × Location)} {changes : List (T × ℤ)} (h : tracker.Keeps origins)
    (hadvances : tracker.builder.Advances T) (hbalanced : tracker.Balanced)
    (hafter : after.Confined origins) (hpopped : tracker.worklist.Popped entry rest)
    (hstep : Circulated tracker entry rest changes after) : after.Keeps origins := by
  intro location time hcyclic hearliest
  rw [hstep.builder] at hcyclic hearliest
  have hmem := h location time hcyclic hearliest
  by_cases hlocation : location = entry.1.2
  · have hcount : 0 < (after.implications_at location).count_for time := by
      by_cases htime : time = entry.1.1
      · -- the time before it on the cycle is listed
        obtain ⟨before, hbefore, hfirst, harc⟩ := hearliest.predecessor hadvances hcyclic
        have hsupport : 0 < tracker.support location time :=
          support_pos_iff.mpr ⟨before, time, h before time hbefore hfirst, harc⟩
        rw [hlocation, htime] at hsupport ⊢
        rw [hstep.count_eq hbalanced hpopped]
        split
        · linarith
        · linarith
      · have hpos := (hbalanced.implications location).frontier.present_of_mem time hmem
        rw [hlocation] at hpos ⊢
        rw [hstep.updated.count, tally_cons, if_neg (Ne.symm htime), tally_nil, add_zero, add_zero]
        exact hpos
    have hsettled := (hstep.settled hbalanced.toSettled).implications location
    obtain ⟨least, hleast, hle⟩ := hsettled.frontier.covers time hcount
    have harises := hafter location least (hsettled.frontier.present_of_mem least hleast)
    rw [hstep.builder] at harises
    rcases hle.eq_or_lt with rfl | hlt
    · exact hleast
    · exact absurd hlt (hearliest.not_lt least harises)
  · rw [hstep.implications location hlocation]
    exact hmem

/-- A call lists only what arises from the pointstamps, and keeps what lasts. -/
theorem Propagates.confined {tracker after : Tracker S T} (h : tracker.Propagates after)
    (hadvances : tracker.builder.Advances T) (hbalanced : tracker.Balanced)
    (hconfined : tracker.Confined origins)
    (hseeds : ∀ location time, 0 < (after.pointstamps_at location).count_for time →
      tracker.builder.Arises origins (location, time)) :
    after.Confined origins ∧ (tracker.Keeps origins → after.Keeps origins) := by
  obtain ⟨middle, loaded, hphases⟩ := propagates_iff.mp h
  have hlinked := hphases.linked hbalanced
  obtain ⟨fuel, hcirculate⟩ := hphases.circulation
  have hbuilder : loaded.builder = tracker.builder :=
    hlinked.second.builder.trans hlinked.first.builder
  have himplications : ∀ location, loaded.implications_at location = tracker.implications_at location :=
    fun location => (hlinked.second.implications location).trans (hlinked.first.implications location)
  have hloaded : loaded.Confined origins := by
    intro location time hpos
    rw [hbuilder]
    rw [himplications] at hpos
    exact hconfined location time hpos
  have hkept : tracker.Keeps origins → loaded.Keeps origins := by
    intro hkeeps location time
    rw [hbuilder, himplications]
    exact hkeeps location time
  refine (circulate_induct (P := fun state => state.builder = tracker.builder ∧
    (∀ location, state.pointstamps_at location = after.pointstamps_at location) ∧
    state.Confined origins ∧ (tracker.Keeps origins → state.Keeps origins)) ?_ hlinked.loaded_balanced
    ⟨hbuilder, fun location => (hlinked.third.pointstamps location).symm, hloaded, hkept⟩
    hcirculate).2.2.2
  rintro before next entry rest changes hbefore ⟨hgraph, hpointstamps, hstate, hlisted⟩ hpopped hstep
  have hadvancing : before.builder.Advances T := hgraph ▸ hadvances
  have hnext : next.Confined origins := by
    refine hstate.circulated hadvancing hbefore (fun location time hpos => ?_) hpopped hstep
    rw [hgraph]
    rw [hpointstamps] at hpos
    exact hseeds location time hpos
  exact ⟨hstep.builder.trans hgraph,
    fun location => (hstep.pointstamps location).trans (hpointstamps location), hnext,
    fun hkeeps => (hlisted hkeeps).circulated hadvancing hbefore hnext hpopped hstep⟩

/-! ### What lasts is covered -/

variable (origins) in
/-- Below everything that arises at a location there is an earliest time of what arises there. -/
def Founded (builder : Builder S) : Prop :=
  ∀ location time, builder.Arises origins (location, time) →
    ∃ least, builder.Earliest origins location least ∧ least ≤ time

/-- A tracker that counts all the pointstamps from which its implications arise. -/
structure Rooted (origins : Location × T → Prop) (tracker : Tracker S T) : Prop where
  quiet : tracker.Quiet
  confined : tracker.Confined origins
  counts : ∀ location time, origins (location, time) →
    0 < (tracker.pointstamps_at location).count_for time

theorem Rooted.covers {tracker : Tracker S T} (h : tracker.Rooted origins)
    (hadvances : tracker.builder.Advances T) {location : Location} {time : T}
    (harises : tracker.builder.Arises origins (location, time)) :
    Covers (fun location => (tracker.implications_at location).frontier) location time := by
  obtain ⟨⟨origin, start⟩, horigin, hcould⟩ := harises
  exact h.quiet.covers hadvances (h.counts origin start horigin) hcould

/-- What such a tracker lists are the earliest times. -/
theorem Rooted.earliest {tracker : Tracker S T} (h : tracker.Rooted origins)
    (hadvances : tracker.builder.Advances T) {location : Location} {time : T}
    (hmem : time ∈ (tracker.implications_at location).frontier) :
    tracker.builder.Earliest origins location time := by
  refine ⟨h.confined.arises_of_mem h.quiet.toSettled hmem, fun other harises hlt => ?_⟩
  obtain ⟨least, hleast, hle⟩ := h.covers hadvances harises
  have heq := (h.quiet.implications location).frontier.eq_of_le hleast hmem (hle.trans hlt.le)
  exact absurd (heq ▸ hle) (not_le_of_gt hlt)

theorem Rooted.founded {tracker : Tracker S T} (h : tracker.Rooted origins)
    (hadvances : tracker.builder.Advances T) : Founded origins tracker.builder := by
  intro location time harises
  obtain ⟨least, hleast, hle⟩ := h.covers hadvances harises
  exact ⟨least, h.earliest hadvances hleast, hle⟩

theorem Rooted.keeps {tracker : Tracker S T} (h : tracker.Rooted origins)
    (hadvances : tracker.builder.Advances T) : tracker.Keeps origins := by
  intro location time _ hearliest
  obtain ⟨least, hleast, hle⟩ := h.covers hadvances hearliest.arises
  rcases hle.eq_or_lt with rfl | hlt
  · exact hleast
  · exact absurd hlt (hearliest.not_lt least (h.confined.arises_of_mem h.quiet.toSettled hleast))

/-- What a cycle could result in is covered for good. -/
theorem Quiet.covers_lasting {tracker : Tracker S T} (h : tracker.Quiet)
    (hadvances : tracker.builder.Advances T) (hfounded : Founded origins tracker.builder)
    (hkeeps : tracker.Keeps origins) {target : Location × T}
    (hlasts : tracker.builder.Lasts origins target) :
    Covers (fun location => (tracker.implications_at location).frontier) target.1 target.2 := by
  obtain ⟨⟨location, time⟩, harises, hcyclic, hcould⟩ := hlasts
  obtain ⟨least, hearliest, hle⟩ := hfounded location time harises
  exact h.covers_could hadvances ⟨least, hkeeps location least hcyclic hearliest, hle⟩ hcould

/-! ### What does not last is counted -/

/-- The listed pointstamps are finitely many. -/
theorem finite_implications (tracker : Tracker S T) :
    {target : Location × T | target.2 ∈ (tracker.implications_at target.1).frontier}.Finite := by
  have hlisted : {target : Location × T | target.2 ∈ (tracker.implications_at target.1).frontier} ⊆
      ⋃ location ∈ tracker.builder.locations.toFinset,
        (fun time => (location, time)) '' {time | time ∈ (tracker.implications_at location).frontier} := by
    rintro ⟨location, time⟩ hmem
    have hlocation : location ∈ tracker.builder.locations.toFinset := by
      by_contra hnot
      change time ∈ (tracker.implications_at location).frontier at hmem
      rw [frontier_eq_nil_of_not_mem hnot] at hmem
      exact List.not_mem_nil hmem
    exact Set.mem_iUnion₂.mpr ⟨location, hlocation, time, hmem, rfl⟩
  refine Set.Finite.subset ?_ hlisted
  exact Set.Finite.biUnion (Finset.finite_toSet _) fun location _ =>
    (List.finite_toSet _).image _

/-- Each listed time that does not last is one that a counted pointstamp could result in. -/
theorem Quiet.exists_count {tracker : Tracker S T} (h : tracker.Quiet)
    (hadvances : tracker.builder.Advances T) (hconfined : tracker.Confined origins)
    {target : Location × T} (hmem : target.2 ∈ (tracker.implications_at target.1).frontier)
    (hlasts : ¬ tracker.builder.Lasts origins target) :
    ∃ origin : Location × T, 0 < (tracker.pointstamps_at origin.1).count_for origin.2 ∧
      tracker.builder.CouldResultIn origin target := by
  have horder := hadvances.isStrictOrder origins
  -- by induction along the order of the listed pointstamps, which are finitely many
  refine (tracker.finite_implications.wellFoundedOn (r := tracker.builder.Passes origins)).induction
    hmem (P := fun target => ¬ tracker.builder.Lasts origins target → ∃ origin : Location × T,
      0 < (tracker.pointstamps_at origin.1).count_for origin.2 ∧
        tracker.builder.CouldResultIn origin target) ?_ hlasts
  rintro ⟨location, time⟩ hlisted ih hpasses
  rcases (h.stable.frontier location).present_of_mem _ hlisted with hseed | ⟨origin, start, hstart, hstep⟩
  · exact ⟨(location, time), (h.pointstamps location).frontier.present_of_mem _ hseed,
      Builder.CouldResultIn.refl _ _⟩
  · have hcould : tracker.builder.CouldResultIn (origin, start) (location, time) :=
      Builder.CouldResultIn.of_step hstep
    have harises := hconfined.arises_of_mem h.toSettled hstart
    -- a step to itself would be a cycle
    have hne : (origin, start) ≠ (location, time) := by
      intro heq
      rw [heq] at hstep harises
      rcases hadvances.still_or_lt hstep with ⟨hstill, _⟩ | hlt
      · exact hpasses ⟨_, harises, Relation.TransGen.single hstill, Builder.CouldResultIn.refl _ _⟩
      · exact absurd hlt (lt_irrefl _)
    obtain ⟨seed, hcount, hseed⟩ := ih (origin, start) hstart ⟨⟨hne, hcould⟩, harises, hpasses⟩
      fun hlasting => hpasses (hlasting.could hadvances hcould)
    exact ⟨seed, hcount, hseed.trans hadvances hcould⟩

end Origins

end Tracker

end Timely
