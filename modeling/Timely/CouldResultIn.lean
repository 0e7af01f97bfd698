/-
  Timely/CouldResultIn.lean
  =========================
  **The order of pointstamps.**

  A pointstamp could result in another one if a path leads from its location to
  that of the other, and takes its time to one no later.  In a graph whose
  summaries advance timestamps two pointstamps that could result in each other are
  on a cycle that leaves their time as it is.  What such a cycle could result in lasts; on
  all the rest this is an order.
-/
import Timely.Propagate

set_option linter.unusedSectionVars false

namespace Timely

open Library

variable {S T : Type} [PartialOrder T] [PathSummary S T]

namespace Builder

/-! ### Graphs that advance timestamps -/

variable (T) in
/-- The summaries of a graph keep the order of timestamps, and each of them leaves all timestamps
    as they are or advances them. -/
structure Advances (builder : Builder S) : Prop where
  results_in_mono : ∀ {summary : S} {early late result : T}, builder.HasSummary summary →
    early ≤ late → PathSummary.results_in summary late = some result →
    ∃ lower, PathSummary.results_in summary early = some lower ∧ lower ≤ result
  kept_or_lt : ∀ {summary : S}, builder.HasSummary summary →
    (∀ time : T, PathSummary.results_in summary time = some time) ∨
      ∀ {time result : T}, PathSummary.results_in summary time = some result → time < result

variable (T) in
/-- A step that leaves all timestamps as they are. -/
def Still (builder : Builder S) (first last : Location) : Prop :=
  ∀ time : T, builder.step (first, time) (last, time)

variable (T) in
/-- A location on a cycle that leaves all timestamps as they are. -/
def Cyclic (builder : Builder S) (location : Location) : Prop :=
  Relation.TransGen (builder.Still T) location location

/-- Integers that are not negative, and nested products of them, have summaries of this kind only. -/
theorem advances [DecidableEq S] [AdvancingSummary S T] (builder : Builder S) :
    builder.Advances T where
  results_in_mono _ := MonotoneSummary.results_in_mono _
  kept_or_lt {summary} _ := by
    by_cases hdefault : summary = default
    · rw [hdefault]
      exact Or.inl AdvancingSummary.results_in_default
    · exact Or.inr fun hresult => AdvancingSummary.lt_of_results_in hdefault hresult

variable {builder : Builder S}

theorem Advances.step_monotone (hadvances : builder.Advances T) :
    StepMonotone (builder.step (T := T)) :=
  step_monotone_of_summaries hadvances.results_in_mono

theorem Advances.still_or_lt (hadvances : builder.Advances T) {origin target : Location × T}
    (h : builder.step origin target) :
    (builder.Still T origin.1 target.1 ∧ origin.2 = target.2) ∨ origin.2 < target.2 := by
  obtain ⟨first, time⟩ := origin
  obtain ⟨last, result⟩ := target
  change Arc builder first time last result at h
  cases h with
  | edge _ htargets htarget => exact Or.inl ⟨fun other => Arc.edge other htargets htarget, rfl⟩
  | summary houtputs hantichain hsummary hresult =>
    rcases hadvances.kept_or_lt ⟨_, _, _, _, _, houtputs, hantichain, hsummary⟩ with hkept | hlt
    · refine Or.inl ⟨fun other => Arc.summary houtputs hantichain hsummary (hkept other), ?_⟩
      rw [hkept] at hresult
      exact Option.some.inj hresult
    · exact Or.inr (hlt hresult)

/-- Along a path the time stays as it is, and then all times would, or it advances. -/
theorem Advances.path (hadvances : builder.Advances T) {origin target : Location} {start time : T}
    (h : Path builder origin start target time) :
    (Relation.ReflTransGen (builder.Still T) origin target ∧ start = time) ∨ start < time := by
  induction h with
  | nil => exact Or.inl ⟨Relation.ReflTransGen.refl, rfl⟩
  | @snoc middle last between result _ harc ih =>
    have hstep : builder.step (middle, between) (last, result) := harc
    rcases hadvances.still_or_lt hstep with ⟨hstill, heq⟩ | hlt
    · rcases ih with ⟨hpath, hstart⟩ | hstart
      · exact Or.inl ⟨hpath.tail hstill, hstart.trans heq⟩
      · exact Or.inr (hstart.trans_eq heq)
    · rcases ih with ⟨_, hstart⟩ | hstart
      · exact Or.inr (hstart.trans_lt hlt)
      · exact Or.inr (hstart.trans hlt)

theorem path_of_still {origin target : Location} (time : T)
    (h : Relation.ReflTransGen (builder.Still T) origin target) :
    Path builder origin time target time := by
  induction h with
  | refl => exact Path.nil
  | tail _ hstill ih => exact ih.snoc (hstill time)

/-! ### Pointstamps -/

/-- A path leads from the first pointstamp to the second one, or earlier. -/
def CouldResultIn (builder : Builder S) (origin target : Location × T) : Prop :=
  ∃ time, Path builder origin.1 origin.2 target.1 time ∧ time ≤ target.2

/-- A pointstamp that could result in another one than itself. -/
def Precedes (builder : Builder S) (origin target : Location × T) : Prop :=
  origin ≠ target ∧ builder.CouldResultIn origin target

variable {first second third : Location × T}

theorem CouldResultIn.refl (builder : Builder S) (pointstamp : Location × T) :
    builder.CouldResultIn pointstamp pointstamp :=
  ⟨pointstamp.2, Path.nil, le_rfl⟩

theorem CouldResultIn.of_path {origin target : Location} {start time : T}
    (h : Path builder origin start target time) :
    builder.CouldResultIn (origin, start) (target, time) :=
  ⟨time, h, le_rfl⟩

theorem CouldResultIn.of_step (h : builder.step first second) : builder.CouldResultIn first second :=
  ⟨second.2, Path.nil.snoc h, le_rfl⟩

/-- An earlier time can take every path that a later one can, to a time no later. -/
theorem Path.mono (hadvances : builder.Advances T) {origin target : Location} {early late time : T}
    (hle : early ≤ late) (h : Path builder origin late target time) :
    builder.CouldResultIn (origin, early) (target, time) := by
  induction h with
  | nil => exact ⟨early, Path.nil, hle⟩
  | snoc _ harc ih =>
    obtain ⟨lower, hpath, hlower⟩ := ih
    obtain ⟨result, hresult, hbelow⟩ := hadvances.step_monotone hlower harc
    exact ⟨result, hpath.snoc hresult, hbelow⟩

theorem CouldResultIn.trans (hadvances : builder.Advances T) (h : builder.CouldResultIn first second)
    (h' : builder.CouldResultIn second third) : builder.CouldResultIn first third := by
  obtain ⟨between, hfirst, hbetween⟩ := h
  obtain ⟨time, hsecond, htime⟩ := h'
  obtain ⟨lower, hlower, hbelow⟩ := hsecond.mono hadvances hbetween
  exact ⟨lower, hfirst.trans hlower, hbelow.trans htime⟩

theorem CouldResultIn.le (hadvances : builder.Advances T) (h : builder.CouldResultIn first second) :
    first.2 ≤ second.2 := by
  obtain ⟨time, hpath, htime⟩ := h
  rcases hadvances.path hpath with ⟨_, heq⟩ | hlt
  · exact heq.trans_le htime
  · exact hlt.le.trans htime

/-- Without advancing, a pointstamp results in others by steps that leave all timestamps as they are. -/
theorem CouldResultIn.still (hadvances : builder.Advances T) (h : builder.CouldResultIn first second)
    (heq : first.2 = second.2) : Relation.ReflTransGen (builder.Still T) first.1 second.1 := by
  obtain ⟨time, hpath, htime⟩ := h
  rcases hadvances.path hpath with ⟨hstill, _⟩ | hlt
  · exact hstill
  · exact absurd (hlt.trans_le htime) heq.not_lt

/-- Two pointstamps that could result in each other are on a cycle. -/
theorem Precedes.cyclic (hadvances : builder.Advances T) (h : builder.Precedes first second)
    (h' : builder.CouldResultIn second first) : builder.Cyclic T first.1 := by
  obtain ⟨hne, hcould⟩ := h
  have htime : first.2 = second.2 := le_antisymm (hcould.le hadvances) (h'.le hadvances)
  have hthere := hcould.still hadvances htime
  have hback := h'.still hadvances htime.symm
  rcases Relation.reflTransGen_iff_eq_or_transGen.mp hthere with heq | hmore
  · exact absurd (Prod.ext heq.symm htime) hne
  · exact hmore.trans_left hback

/-! ### What lasts -/

section Origins

variable (origins : Location × T → Prop)

/-- A pointstamp that one of the given ones could result in. -/
def Arises (builder : Builder S) (pointstamp : Location × T) : Prop :=
  ∃ origin, origins origin ∧ builder.CouldResultIn origin pointstamp

/-- A pointstamp that a cycle could result in, on which one of the given pointstamps has led. -/
def Lasts (builder : Builder S) (pointstamp : Location × T) : Prop :=
  ∃ origin, builder.Arises origins origin ∧ builder.Cyclic T origin.1 ∧
    builder.CouldResultIn origin pointstamp

/-- The first pointstamp could result in the second one, which is another one and does not last. -/
def Passes (builder : Builder S) (first second : Location × T) : Prop :=
  builder.Precedes first second ∧ builder.Arises origins first ∧ ¬ builder.Lasts origins second

/-- An earliest time of what arises at a location. -/
structure Earliest (builder : Builder S) (location : Location) (time : T) : Prop where
  arises : builder.Arises origins (location, time)
  not_lt : ∀ other, builder.Arises origins (location, other) → ¬ other < time

variable {origins}

theorem Arises.of_origin (h : origins first) : builder.Arises origins first :=
  ⟨first, h, CouldResultIn.refl builder first⟩

theorem Arises.could (hadvances : builder.Advances T) (h : builder.Arises origins first)
    (hcould : builder.CouldResultIn first second) : builder.Arises origins second := by
  obtain ⟨origin, horigin, hfirst⟩ := h
  exact ⟨origin, horigin, hfirst.trans hadvances hcould⟩

theorem Lasts.could (hadvances : builder.Advances T) (h : builder.Lasts origins first)
    (hcould : builder.CouldResultIn first second) : builder.Lasts origins second := by
  obtain ⟨origin, harises, hcyclic, hfirst⟩ := h
  exact ⟨origin, harises, hcyclic, hfirst.trans hadvances hcould⟩

/-- What does not last is ordered. -/
theorem Advances.isStrictOrder (hadvances : builder.Advances T) (origins : Location × T → Prop) :
    IsStrictOrder (Location × T) (builder.Passes origins) where
  irrefl _ h := h.1.1 rfl
  trans first second third h h' := by
    obtain ⟨hfirst, harises, hpasses⟩ := h
    obtain ⟨hsecond, _, hthird⟩ := h'
    refine ⟨⟨?_, hfirst.2.trans hadvances hsecond.2⟩, harises, hthird⟩
    rintro rfl
    exact hpasses ⟨first, harises, hfirst.cyclic hadvances hsecond.2, hfirst.2⟩

/-- An earliest time on a cycle comes from the same time before on the cycle, where it is earliest too. -/
theorem Earliest.predecessor (hadvances : builder.Advances T) {location : Location} {time : T}
    (h : builder.Earliest origins location time) (hcyclic : builder.Cyclic T location) :
    ∃ before, builder.Cyclic T before ∧ builder.Earliest origins before time ∧
      builder.step (before, time) (location, time) := by
  obtain ⟨before, hthere, hstill⟩ := Relation.TransGen.tail'_iff.mp hcyclic
  refine ⟨before, Relation.TransGen.head' hstill hthere, ⟨?_, ?_⟩, hstill time⟩
  · exact h.arises.could hadvances (CouldResultIn.of_path (path_of_still time hthere))
  · intro other harises
    exact h.not_lt other (harises.could hadvances (CouldResultIn.of_step (hstill other)))

end Origins

end Builder

end Timely
