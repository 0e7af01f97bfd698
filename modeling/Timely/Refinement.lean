/-
  Timely/Refinement.lean
  ======================
  **Between the times of a scope and of the scope around it**
  (`timely/src/progress/timestamp.rs`, `Refines`, and `timely/src/order.rs`).

  A capability at an outer time is held inside at `to_inner` of it.  This is safe
  where `to_inner` is below every inner time that the outer time stands for, and
  where a path inside is summarized by one that is no longer.  All refinements of
  the repository have these laws but one: the default of a signed integer, which
  stands for the unit time inside, is above the negative times.
-/
import Timely.Composition
import Mathlib.Order.CompletePartialOrder

set_option linter.unusedSectionVars false

namespace Timely

/-! ### The trait and its laws -/

/-- `Refines` with its third method: it summarizes an inner path summary as an outer one. -/
structure Refinement (TOuter TInner SOuter SInner : Type) extends Refines TOuter TInner where
  summarize : SInner → SOuter

/-- What entering and leaving a scope relies on. -/
structure Refinement.Lawful {TOuter TInner SOuter SInner : Type} [PartialOrder TOuter] [PartialOrder TInner]
    [PathSummary SOuter TOuter] [PathSummary SInner TInner]
    (refinement : Refinement TOuter TInner SOuter SInner) : Prop where
  to_outer_to_inner : ∀ time, refinement.to_outer (refinement.to_inner time) = time
  to_inner_mono : ∀ {first second}, first ≤ second → refinement.to_inner first ≤ refinement.to_inner second
  to_outer_mono : ∀ {first second}, first ≤ second → refinement.to_outer first ≤ refinement.to_outer second
  covers : ∀ {time inner}, time ≤ refinement.to_outer inner → refinement.to_inner time ≤ inner
  summarizes : ∀ {path : SInner} {time inner},
    PathSummary.results_in path (refinement.to_inner time) = some inner →
    ∃ outer, PathSummary.results_in (refinement.summarize path) time = some outer ∧
      outer ≤ refinement.to_outer inner

/-- `minimum` is less than or equal to every time. -/
class LeastMinimum (T : Type) [PartialOrder T] [Timestamp T] : Prop where
  minimum_le : ∀ time : T, Timestamp.minimum ≤ time

/-- `Default` is less than or equal to every time. -/
class LeastDefault (T : Type) [PartialOrder T] [Inhabited T] : Prop where
  default_le : ∀ time : T, default ≤ time

/-! ### Least times -/

instance : LeastMinimum Unit := ⟨fun _ => le_rfl⟩

instance {width : ℕ} : LeastMinimum (Unsigned width) := ⟨fun time => Nat.zero_le time.val⟩

instance {width : ℕ} : LeastMinimum (Signed width) := ⟨fun time => time.lower⟩

instance : LeastMinimum Duration := ⟨fun _ => Duration.le_iff.mpr (Nat.zero_le _)⟩

instance {TOuter TInner : Type} [PartialOrder TOuter] [PartialOrder TInner] [Timestamp TOuter]
    [Timestamp TInner] [LeastMinimum TOuter] [LeastMinimum TInner] :
    LeastMinimum (Product TOuter TInner) :=
  ⟨fun time => ⟨LeastMinimum.minimum_le time.outer, LeastMinimum.minimum_le time.inner⟩⟩

instance {width : ℕ} : LeastDefault (Unsigned width) := ⟨fun time => Nat.zero_le time.val⟩

instance : LeastDefault Duration := ⟨fun _ => Duration.le_iff.mpr (Nat.zero_le _)⟩

/-- The default of a signed integer is zero, and there are times below. -/
theorem Signed.not_leastDefault (width : ℕ) : ¬ LeastDefault (Signed width) := by
  intro h
  have hpos : (0 : ℤ) < 2 ^ (width - 1) := by positivity
  have hle := h.default_le (⟨-1, by omega, by omega⟩ : Signed width)
  exact absurd hle (by decide : ¬ (0 : ℤ) ≤ -1)

namespace Refinement

/-! ### The implementations -/

/-- All types refine themselves. -/
def itself (T S : Type) : Refinement T T S S where
  toRefines := Refines.self T
  summarize path := path

/-- What `implement_refines_empty!` implements: the type refines the unit type. -/
def over_unit (T S : Type) [Inhabited T] : Refinement Unit T Unit S where
  toRefines := Refines.empty T
  summarize _ := ()

/-- A nested pair refines its outer coordinate. -/
def over_outer (TOuter TInner SOuter SInner : Type) [Timestamp TInner] :
    Refinement TOuter (Product TOuter TInner) SOuter (Product SOuter SInner) where
  toRefines := Refines.product TOuter TInner
  summarize path := path.outer

section Laws

variable {TOuter TInner SOuter SInner : Type} [PartialOrder TOuter] [PartialOrder TInner]
  [PathSummary SOuter TOuter] [PathSummary SInner TInner]

theorem lawful_itself : (itself TInner SInner).Lawful where
  to_outer_to_inner _ := rfl
  to_inner_mono h := h
  to_outer_mono h := h
  covers h := h
  summarizes {_ _ inner} h := ⟨inner, h, le_rfl⟩

/-- Over the unit type all laws hold if the default is the least time, and only then. -/
theorem lawful_over_unit_iff [Inhabited TInner] :
    (over_unit TInner SInner).Lawful ↔ LeastDefault TInner := by
  constructor
  · intro h
    exact ⟨fun _ => h.covers (le_refl ())⟩
  · intro h
    exact
      { to_outer_to_inner := fun _ => rfl
        to_inner_mono := fun _ => le_rfl
        to_outer_mono := fun _ => le_rfl
        covers := fun _ => h.default_le _
        summarizes := fun _ => ⟨(), rfl, le_rfl⟩ }

theorem lawful_over_outer [Timestamp TInner] [LeastMinimum TInner] :
    (over_outer TOuter TInner SOuter SInner).Lawful where
  to_outer_to_inner _ := rfl
  to_inner_mono h := ⟨h, le_rfl⟩
  to_outer_mono h := h.1
  covers {_ inner} h := ⟨h, LeastMinimum.minimum_le inner.inner⟩
  summarizes {_ _ inner} h := ⟨inner.outer, (Product.results_in_eq_some.mp h).1, le_rfl⟩

end Laws

end Refinement

/-! ### All of them -/

instance IndexType.partialOrder : (index_type : IndexType) → PartialOrder index_type.Time
  | .unsigned width => inferInstanceAs (PartialOrder (Unsigned width))
  | .signed width => inferInstanceAs (PartialOrder (Signed width))
  | .duration => inferInstanceAs (PartialOrder Duration)

/-- The implementations of `Refines` in the repository. -/
inductive Implementation where
  | itself
  | over_unit (index_type : IndexType)
  | over_outer

namespace Implementation

section Types

variable (TOuter TInner SOuter SInner : Type) [PartialOrder TOuter] [PartialOrder TInner]
  [PathSummary SOuter TOuter] [PathSummary SInner TInner] [Timestamp TInner]

/-- An implementation has the laws, in the generic ones for these types of times and summaries. -/
def Lawful : Implementation → Prop
  | .itself => (Refinement.itself TInner SInner).Lawful
  | .over_unit index_type => (Refinement.over_unit index_type.Time index_type.Time).Lawful
  | .over_outer => (Refinement.over_outer TOuter TInner SOuter SInner).Lawful

end Types

/-- A signed integer type over the unit type. -/
def SignedOverUnit : Implementation → Prop
  | .over_unit (.signed _) => True
  | _ => False

variable {TOuter TInner SOuter SInner : Type} [PartialOrder TOuter] [PartialOrder TInner]
  [PathSummary SOuter TOuter] [PathSummary SInner TInner] [Timestamp TInner]

/-- All implementations have the laws, except those of signed integers over the unit type. -/
theorem refines_lawful_iff [LeastMinimum TInner] (implementation : Implementation) :
    implementation.Lawful TOuter TInner SOuter SInner ↔ ¬ implementation.SignedOverUnit := by
  cases implementation with
  | itself => exact ⟨fun _ => id, fun _ => Refinement.lawful_itself⟩
  | over_unit index_type =>
    refine (Refinement.lawful_over_unit_iff).trans ?_
    cases index_type with
    | unsigned width => exact ⟨fun _ => id, fun _ => inferInstanceAs (LeastDefault (Unsigned width))⟩
    | signed width => exact ⟨fun h => absurd h (Signed.not_leastDefault width), fun h => absurd trivial h⟩
    | duration => exact ⟨fun _ => id, fun _ => inferInstanceAs (LeastDefault Duration)⟩
  | over_outer => exact ⟨fun _ => id, fun _ => Refinement.lawful_over_outer⟩

theorem refines_lawful_iff_example :
    Lawful (Unsigned 64) (Signed 32) (Unsigned 64) (Signed 32) .over_outer
    ∧ ¬ Lawful (Unsigned 64) (Signed 32) (Unsigned 64) (Signed 32) (.over_unit (.signed 32)) :=
  ⟨(refines_lawful_iff .over_outer).mpr id, fun h => (refines_lawful_iff (.over_unit (.signed 32))).mp h trivial⟩

/-- The unit time is 0 inside, and -1 is before it. -/
theorem default_above_time :
    (Refinement.over_unit (Signed 8) (Signed 8)).to_inner () ≠ Timestamp.minimum
    ∧ ¬ (Refinement.over_unit (Signed 8) (Signed 8)).Lawful := by
  refine ⟨by decide, fun h => ?_⟩
  have hle : default ≤ (⟨-1, by decide, by decide⟩ : Signed 8) := h.covers (le_refl ())
  exact absurd hle (by decide)

end Implementation

end Timely
