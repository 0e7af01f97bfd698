/-
  Timely/Library/Propagation.lean
  ===============================
  **Frontiers propagated through a graph.**

  Each place carries a list of minimal times.  A time at a place can step to a
  time at another place, and an earlier time can step at least as early.  In a
  `Stable` assignment the times present at a place are its seeds and the times
  one step from a neighbour's list.  Such an assignment covers everything the
  seeds reach; when steps cannot go around without advancing, it holds exactly
  the minimal reachable times, so it is unique.
-/
import Timely.Library.Minimal
import Mathlib.Logic.Relation
import Mathlib.Order.WellFounded
import Mathlib.Order.RelClasses

namespace Library

variable {L T : Type*} [PartialOrder T]

/-- An earlier time can make every step that a later time can, to a time no later. -/
def StepMonotone (step : L × T → L × T → Prop) : Prop :=
  ∀ {first last : L} {early late result : T}, early ≤ late → step (first, late) (last, result) →
    ∃ lower, step (first, early) (last, lower) ∧ lower ≤ result

/-- Some listed time at the place is no later than the given one. -/
def Covers (front : L → List T) (place : L) (time : T) : Prop := ∃ least ∈ front place, least ≤ time

/-- The seeds reach a time at a place. -/
def Reaches (step : L × T → L × T → Prop) (seeds : L → T → Prop) (place : L) (time : T) : Prop :=
  ∃ origin start, seeds origin start ∧ Relation.ReflTransGen step (origin, start) (place, time)

/-- The lists hold the minimal times among the seeds and what is one step from a list. -/
structure Stable (step : L × T → L × T → Prop) (seeds : L → T → Prop) (front : L → List T) :
    Prop where
  frontier : ∀ place, IsFrontier (front place) fun time =>
    seeds place time ∨ ∃ origin start, start ∈ front origin ∧ step (origin, start) (place, time)

section Covering

variable {step : L × T → L × T → Prop} {seeds : L → T → Prop} {front : L → List T}

theorem Covers.mono {place : L} {early late : T} (h : Covers front place early)
    (hle : early ≤ late) : Covers front place late := by
  obtain ⟨least, hleast, hbelow⟩ := h
  exact ⟨least, hleast, hbelow.trans hle⟩

theorem Stable.covers_seed (h : Stable step seeds front) {place : L} {time : T}
    (hseed : seeds place time) : Covers front place time :=
  (h.frontier place).covers time (Or.inl hseed)

/-- What is covered stays covered along a step. -/
theorem Stable.covers_step (h : Stable step seeds front) (hmono : StepMonotone step)
    {first last : L} {time result : T} (hcovers : Covers front first time)
    (hstep : step (first, time) (last, result)) : Covers front last result := by
  obtain ⟨least, hleast, hle⟩ := hcovers
  obtain ⟨lower, hlower, hbelow⟩ := hmono hle hstep
  obtain ⟨found, hfound, hfoundLe⟩ :=
    (h.frontier last).covers lower (Or.inr ⟨first, least, hleast, hlower⟩)
  exact ⟨found, hfound, hfoundLe.trans hbelow⟩

theorem Stable.covers_path (h : Stable step seeds front) (hmono : StepMonotone step)
    {origin target : L × T} (hcovers : Covers front origin.1 origin.2)
    (hpath : Relation.ReflTransGen step origin target) : Covers front target.1 target.2 := by
  induction hpath with
  | refl => exact hcovers
  | tail _ hstep ih => exact h.covers_step hmono ih hstep

theorem Stable.covers_reached (h : Stable step seeds front) (hmono : StepMonotone step)
    {place : L} {time : T} (hreached : Reaches step seeds place time) : Covers front place time := by
  obtain ⟨origin, start, hseed, hpath⟩ := hreached
  exact h.covers_path hmono (h.covers_seed hseed) hpath

/-- Without steps that go around in place, everything listed is reached from a seed: a
    listed time is a seed or comes from a listed time that precedes it. -/
theorem Stable.reached_of_mem (h : Stable step seeds front) (hwf : WellFounded step) {place : L}
    {time : T} (hmem : time ∈ front place) : Reaches step seeds place time := by
  have hall : ∀ target : L × T, target.2 ∈ front target.1 → Reaches step seeds target.1 target.2 := by
    intro target
    induction target using hwf.induction with
    | _ target ih =>
      intro htarget
      rcases (h.frontier target.1).present_of_mem _ htarget with hseed | ⟨origin, start, hstart, hstep⟩
      · exact ⟨target.1, target.2, hseed, Relation.ReflTransGen.refl⟩
      · obtain ⟨seed, first, hseed, hpath⟩ := ih (origin, start) hstep hstart
        exact ⟨seed, first, hseed, hpath.tail hstep⟩
  exact hall (place, time) hmem

/-- A stable assignment without circular steps lists the minimal reachable times. -/
theorem Stable.isFrontier (h : Stable step seeds front) (hmono : StepMonotone step)
    (hwf : WellFounded step) (place : L) :
    IsFrontier (front place) (Reaches step seeds place) where
  present_of_mem _ hmem := h.reached_of_mem hwf hmem
  incomparable := (h.frontier place).incomparable
  covers _ hreached := h.covers_reached hmono hreached

/-- What an assignment lists without going through one seed is covered by every assignment
    that covers the other seeds. -/
theorem Stable.covers_of_not_through {seeds' : L → T → Prop} {front' : L → List T}
    (h : Stable step seeds front) (h' : Stable step seeds' front') (hmono : StepMonotone step)
    (hwf : WellFounded step) {removed : L × T}
    (hothers : ∀ origin start, seeds origin start → (origin, start) ≠ removed →
      Covers front' origin start) {place : L} {time : T} (hmem : time ∈ front place)
    (hthrough : ¬ Relation.ReflTransGen step removed (place, time)) : Covers front' place time := by
  obtain ⟨origin, start, hseed, hpath⟩ := h.reached_of_mem hwf hmem
  have hcovers : Covers front' origin start := by
    apply hothers origin start hseed
    rintro rfl
    exact hthrough hpath
  exact h'.covers_path hmono hcovers hpath

/-- Two assignments that cover each other's seeds list the same times. -/
theorem Stable.mem_iff_of_covers_seeds {seeds' : L → T → Prop} {front' : L → List T}
    (h : Stable step seeds front) (h' : Stable step seeds' front') (hmono : StepMonotone step)
    (hwf : WellFounded step)
    (hseeds : ∀ place time, seeds place time → Covers front' place time)
    (hseeds' : ∀ place time, seeds' place time → Covers front place time) (place : L) (time : T) :
    time ∈ front' place ↔ time ∈ front place := by
  have hcovers : ∀ time, Covers front' place time ↔ Covers front place time := by
    intro time
    constructor
    · rintro ⟨least, hleast, hle⟩
      obtain ⟨origin, start, hseed, hpath⟩ := h'.reached_of_mem hwf hleast
      exact (h.covers_path hmono (hseeds' origin start hseed) hpath).mono hle
    · rintro ⟨least, hleast, hle⟩
      obtain ⟨origin, start, hseed, hpath⟩ := h.reached_of_mem hwf hleast
      exact (h'.covers_path hmono (hseeds origin start hseed) hpath).mono hle
  exact ((h'.frontier place).up_closure.congr hcovers).mem_congr (h.frontier place).up_closure time

end Covering

/-! ### Steps that cannot go around -/

/-- Steps that advance the time, or keep it and climb a rank, cannot go on for ever backwards
    when times cannot. -/
theorem wellFounded_of_rank [WellFoundedLT T] {step : L × T → L × T → Prop} (rank : L → ℕ)
    (h : ∀ {origin target}, step origin target →
      origin.2 < target.2 ∨ (origin.2 = target.2 ∧ rank origin.1 < rank target.1)) :
    WellFounded step := by
  have hlex : WellFounded (Prod.Lex (· < · : T → T → Prop) (· < · : ℕ → ℕ → Prop)) :=
    WellFounded.prod_lex wellFounded_lt wellFounded_lt
  refine Subrelation.wf (r := InvImage _ fun target : L × T => (target.2, rank target.1)) ?_
    (InvImage.wf _ hlex)
  intro origin target hstep
  unfold InvImage
  rw [Prod.lex_def]
  exact h hstep

end Library
