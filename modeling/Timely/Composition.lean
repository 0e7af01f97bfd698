/-
  Timely/Composition.lean
  =======================
  **Composing path summaries** (`timely/src/progress/timestamp.rs`,
  `PathSummary::followed_by`, and `timely/src/order.rs`).

  A composed summary should do to every time what the two summaries do one after
  the other, and there should be no composed summary only where no time survives
  both.  Unsigned integers and durations have this law, and products keep it.
  Signed integers do not: where the two have opposite signs the first one may
  overflow on a time that the composed one keeps, and a sum of one sign may
  overflow although it has times of the other sign to be added to.
-/
import Timely.Duration
import Timely.Library.CheckedAddition

set_option linter.unusedSectionVars false

namespace Timely

open Library

/-! ### The law -/

section Law

variable {S T : Type} [PathSummary S T]

/-- A time moved along the first summary, and then along the second. -/
def in_sequence (first second : S) (time : T) : Option T :=
  (PathSummary.results_in first time).bind (PathSummary.results_in second)

/-- The composed summary does what the two do in sequence, and without it they do nothing. -/
def Composes (first second : S) : Prop :=
  (∀ composed, PathSummary.followed_by first second = some composed →
    ∀ time, PathSummary.results_in composed time = in_sequence first second time) ∧
  (PathSummary.followed_by first second = none → ∀ time, in_sequence first second time = none)

/-- There is a composed summary, and it does what the two do in sequence. -/
def Adds (first second : S) : Prop :=
  ∃ composed, PathSummary.followed_by first second = some composed ∧
    ∀ time, PathSummary.results_in composed time = in_sequence first second time

/-- There is no composed summary, and no time survives both. -/
def Vanishes (first second : S) : Prop :=
  PathSummary.followed_by first second = none ∧ ∀ time, in_sequence first second time = none

theorem composes_iff (first second : S) : Composes first second ↔ Adds first second ∨ Vanishes first second := by
  unfold Composes Adds Vanishes
  cases hfollowed : PathSummary.followed_by first second with
  | none => simp
  | some composed => simp

end Law

/-- Composed summaries do what the two do in sequence to some time at least. -/
class ComposesSomewhere (S : Type) (T : outParam Type) [PathSummary S T] : Prop where
  exists_time : ∀ {first second composed : S}, PathSummary.followed_by first second = some composed →
    ∃ time result : T, in_sequence first second time = some result ∧
      PathSummary.results_in composed time = some result

/-- Unless the two vanish, some time survives both. -/
theorem exists_in_sequence {S T : Type} [PathSummary S T] [ComposesSomewhere S T] {first second : S}
    (h : ¬ Vanishes first second) : ∃ time result, in_sequence first second time = some result := by
  cases hfollowed : PathSummary.followed_by first second with
  | none =>
    by_contra hnone
    refine h ⟨hfollowed, fun time => Option.eq_none_iff_forall_ne_some.mpr fun result hresult => ?_⟩
    exact hnone ⟨time, result, hresult⟩
  | some composed =>
    obtain ⟨time, result, hresult, -⟩ := ComposesSomewhere.exists_time hfollowed
    exact ⟨time, result, hresult⟩

/-! ### Products -/

namespace Product

variable {SOuter SInner TOuter TInner : Type} [PathSummary SOuter TOuter] [PathSummary SInner TInner]
  {first second : Product SOuter SInner} {time result : Product TOuter TInner}

theorem in_sequence_eq_some : in_sequence first second time = some result ↔
    in_sequence first.outer second.outer time.outer = some result.outer ∧
      in_sequence first.inner second.inner time.inner = some result.inner := by
  unfold in_sequence
  simp only [Option.bind_eq_some_iff, results_in_eq_some]
  constructor
  · rintro ⟨middle, ⟨houter, hinner⟩, houter', hinner'⟩
    exact ⟨⟨middle.outer, houter, houter'⟩, ⟨middle.inner, hinner, hinner'⟩⟩
  · rintro ⟨⟨outer, houter, houter'⟩, ⟨inner, hinner, hinner'⟩⟩
    exact ⟨⟨outer, inner⟩, ⟨houter, hinner⟩, houter', hinner'⟩

variable [ComposesSomewhere SOuter TOuter] [ComposesSomewhere SInner TInner]

instance : ComposesSomewhere (Product SOuter SInner) (Product TOuter TInner) where
  exists_time {first second composed} h := by
    obtain ⟨houter, hinner⟩ := followed_by_eq_some.mp h
    obtain ⟨outer, outer', hboth, hdirect⟩ := ComposesSomewhere.exists_time houter
    obtain ⟨inner, inner', hboth', hdirect'⟩ := ComposesSomewhere.exists_time hinner
    exact ⟨⟨outer, inner⟩, ⟨outer', inner'⟩, in_sequence_eq_some.mpr ⟨hboth, hboth'⟩,
      results_in_eq_some.mpr ⟨hdirect, hdirect'⟩⟩

/-- Summaries of products vanish if those of a coordinate do. -/
theorem vanishes_iff (first second : Product SOuter SInner) : Vanishes first second ↔
    Vanishes first.outer second.outer ∨ Vanishes first.inner second.inner := by
  constructor
  · rintro ⟨-, hnone⟩
    by_contra hboth
    obtain ⟨houter, hinner⟩ := not_or.mp hboth
    obtain ⟨outer, outer', houter'⟩ := exists_in_sequence houter
    obtain ⟨inner, inner', hinner'⟩ := exists_in_sequence hinner
    have hsome : in_sequence first second ⟨outer, inner⟩ = some ⟨outer', inner'⟩ :=
      in_sequence_eq_some.mpr ⟨houter', hinner'⟩
    rw [hnone] at hsome
    cases hsome
  · intro h
    constructor
    · rw [Option.eq_none_iff_forall_ne_some]
      intro composed hcomposed
      obtain ⟨houter, hinner⟩ := followed_by_eq_some.mp hcomposed
      rcases h with ⟨hnone, -⟩ | ⟨hnone, -⟩
      · exact absurd (hnone.symm.trans houter) (Option.some_ne_none _).symm
      · exact absurd (hnone.symm.trans hinner) (Option.some_ne_none _).symm
    · intro time
      rw [Option.eq_none_iff_forall_ne_some]
      intro result hresult
      obtain ⟨houter, hinner⟩ := in_sequence_eq_some.mp hresult
      rcases h with ⟨-, hnone⟩ | ⟨-, hnone⟩
      · exact absurd ((hnone time.outer).symm.trans houter) (Option.some_ne_none _).symm
      · exact absurd ((hnone time.inner).symm.trans hinner) (Option.some_ne_none _).symm

/-- Summaries of products add up if those of both coordinates do: where one of them does not,
    a time at which the other one does shows the difference. -/
theorem adds_iff (first second : Product SOuter SInner) : Adds first second ↔
    Adds first.outer second.outer ∧ Adds first.inner second.inner := by
  constructor
  · rintro ⟨composed, hcomposed, hsame⟩
    obtain ⟨houter, hinner⟩ := followed_by_eq_some.mp hcomposed
    obtain ⟨outer, outer', hboth, hdirect⟩ := ComposesSomewhere.exists_time houter
    obtain ⟨inner, inner', hboth', hdirect'⟩ := ComposesSomewhere.exists_time hinner
    constructor
    · refine ⟨composed.outer, houter, fun time => Option.ext fun result => ?_⟩
      have htime : PathSummary.results_in composed ⟨time, inner⟩ = some ⟨result, inner'⟩ ↔
          in_sequence first second ⟨time, inner⟩ = some ⟨result, inner'⟩ := by rw [hsame]
      rw [results_in_eq_some, in_sequence_eq_some] at htime
      exact ⟨fun h => (htime.mp ⟨h, hdirect'⟩).1, fun h => (htime.mpr ⟨h, hboth'⟩).1⟩
    · refine ⟨composed.inner, hinner, fun time => Option.ext fun result => ?_⟩
      have htime : PathSummary.results_in composed ⟨outer, time⟩ = some ⟨outer', result⟩ ↔
          in_sequence first second ⟨outer, time⟩ = some ⟨outer', result⟩ := by rw [hsame]
      rw [results_in_eq_some, in_sequence_eq_some] at htime
      exact ⟨fun h => (htime.mp ⟨hdirect, h⟩).2, fun h => (htime.mpr ⟨hboth, h⟩).2⟩
  · rintro ⟨⟨outer, houter, hsame⟩, ⟨inner, hinner, hsame'⟩⟩
    refine ⟨⟨outer, inner⟩, followed_by_eq_some.mpr ⟨houter, hinner⟩, fun time =>
      Option.ext fun result => ?_⟩
    rw [results_in_eq_some, in_sequence_eq_some, hsame, hsame']

end Product

/-! ### The types of the repository -/

/-- The types that the macros list: the integer types of any width, and `Duration`. -/
inductive IndexType where
  | unsigned (width : ℕ)
  | signed (width : ℕ)
  | duration

/-- Timestamps are of these types, of the unit type, or nested pairs. -/
inductive TimestampType where
  | unit
  | index (index_type : IndexType)
  | product (outer inner : TimestampType)

def IndexType.Time : IndexType → Type
  | .unsigned width => Unsigned width
  | .signed width => Signed width
  | .duration => Duration

def TimestampType.Time : TimestampType → Type
  | .unit => Unit
  | .index index_type => index_type.Time
  | .product outer inner => Product outer.Time inner.Time

namespace IndexType

instance pathSummary : (index_type : IndexType) → PathSummary index_type.Time index_type.Time
  | .unsigned width => inferInstanceAs (PathSummary (Unsigned width) (Unsigned width))
  | .signed width => inferInstanceAs (PathSummary (Signed width) (Signed width))
  | .duration => inferInstanceAs (PathSummary Duration Duration)

end IndexType

instance TimestampType.pathSummary :
    (timestamp_type : TimestampType) → PathSummary timestamp_type.Time timestamp_type.Time
  | .unit => inferInstanceAs (PathSummary Unit Unit)
  | .index index_type => inferInstanceAs (PathSummary index_type.Time index_type.Time)
  | .product outer inner =>
    have := pathSummary outer
    have := pathSummary inner
    inferInstanceAs (PathSummary (Product outer.Time inner.Time) (Product outer.Time inner.Time))

/-! ### Integers and durations -/

/-- The addition of unsigned integers, on the integers from zero. -/
def Unsigned.addition (width : ℕ) : CheckedAddition (Unsigned width) where
  add := checked_add
  val value := value.val
  lower := 0
  upper := 2 ^ width - 1
  around_zero := ⟨le_rfl, by have := Nat.two_pow_pos width; zify at this; omega⟩
  bounds value := by
    have := value.isLt
    zify at this
    omega
  exists_val {number} hlower hupper := by
    obtain ⟨value, rfl⟩ := Int.eq_ofNat_of_zero_le hlower
    have hlt : value < 2 ^ width := by
      zify
      omega
    exact ⟨⟨value, hlt⟩, rfl⟩
  add_eq_some {first second sum} := by
    rw [checked_add_eq_some]
    omega

theorem Signed.checked_add_eq_some {width : ℕ} {first second sum : Signed width} :
    checked_add first second = some sum ↔ first.val + second.val = sum.val := by
  unfold checked_add
  have hlower := sum.lower
  have hupper := sum.upper
  split
  case isTrue => simp [Signed.ext_iff]
  case isFalse hout =>
    constructor
    · intro hnone
      cases hnone
    · intro hsum
      exact absurd ⟨hsum ▸ hlower, hsum ▸ hupper⟩ hout

/-- The addition of signed integers. -/
def Signed.addition (width : ℕ) : CheckedAddition (Signed width) where
  add := checked_add
  val := Signed.val
  lower := -2 ^ (width - 1)
  upper := 2 ^ (width - 1) - 1
  around_zero := by
    have : (0 : ℤ) < 2 ^ (width - 1) := by positivity
    omega
  bounds value := ⟨value.lower, by have := value.upper; omega⟩
  exists_val {number} hlower hupper := ⟨⟨number, hlower, by omega⟩, rfl⟩
  add_eq_some := checked_add_eq_some

/-- The addition of durations, in nanoseconds. -/
def Duration.addition : CheckedAddition Duration where
  add := checked_add
  val duration := duration.as_nanos
  lower := 0
  upper := 1000000000 * 2 ^ 64 - 1
  around_zero := by omega
  bounds duration := by
    have := duration.as_nanos_lt
    omega
  exists_val {number} hlower hupper := by
    obtain ⟨nanos, rfl⟩ := Int.eq_ofNat_of_zero_le hlower
    obtain ⟨duration, hduration⟩ := exists_as_nanos (show nanos < 1000000000 * 2 ^ 64 by omega)
    exact ⟨duration, congrArg Int.ofNat hduration⟩
  add_eq_some {first second sum} := by
    rw [checked_add_eq_some]
    omega

namespace IndexType

/-- The addition by which a type acts and composes. -/
def addition : (index_type : IndexType) → CheckedAddition index_type.Time
  | .unsigned width => Unsigned.addition width
  | .signed width => Signed.addition width
  | .duration => Duration.addition

theorem results_in_eq (index_type : IndexType) (summary time : index_type.Time) :
    PathSummary.results_in summary time = index_type.addition.add summary time := by
  cases index_type <;> rfl

theorem followed_by_eq (index_type : IndexType) (first second : index_type.Time) :
    PathSummary.followed_by first second = index_type.addition.add first second := by
  cases index_type <;> rfl

theorem in_sequence_eq (index_type : IndexType) (first second time : index_type.Time) :
    in_sequence first second time = index_type.addition.add_both first second time := by
  cases index_type <;> rfl

instance (index_type : IndexType) : ComposesSomewhere index_type.Time index_type.Time where
  exists_time {first second composed} h := by
    rw [followed_by_eq] at h
    simpa only [in_sequence_eq, results_in_eq] using index_type.addition.exists_add_both h

/-- The sum of two summaries is representable, and they have no opposite signs. -/
def Summable : (index_type : IndexType) → index_type.Time → index_type.Time → Prop
  | .unsigned width, (first : Unsigned width), (second : Unsigned width) =>
    first.val + second.val < 2 ^ width
  | .signed width, (first : Signed width), (second : Signed width) =>
    (-2 ^ (width - 1) ≤ first.val + second.val ∧ first.val + second.val < 2 ^ (width - 1)) ∧
      (0 ≤ first.val ∧ 0 ≤ second.val ∨ first.val ≤ 0 ∧ second.val ≤ 0)
  | .duration, (first : Duration), (second : Duration) =>
    first.as_nanos + second.as_nanos < 1000000000 * 2 ^ 64

/-- The sum of two summaries leaves no time representable. -/
def Exceeds : (index_type : IndexType) → index_type.Time → index_type.Time → Prop
  | .unsigned width, (first : Unsigned width), (second : Unsigned width) =>
    2 ^ width ≤ first.val + second.val
  | .signed width, (first : Signed width), (second : Signed width) =>
    first.val = -2 ^ (width - 1) ∧ second.val = -2 ^ (width - 1)
  | .duration, (first : Duration), (second : Duration) =>
    1000000000 * 2 ^ 64 ≤ first.as_nanos + second.as_nanos

theorem adds_iff (index_type : IndexType) (first second : index_type.Time) :
    Adds first second ↔ index_type.Summable first second := by
  unfold Adds
  simp only [followed_by_eq, results_in_eq, in_sequence_eq]
  rw [CheckedAddition.sum_agrees_iff]
  cases index_type with
  | unsigned width =>
    change ((0 : ℤ) ≤ (first.val : ℤ) + (second.val : ℤ) ∧ (first.val : ℤ) + (second.val : ℤ) ≤ 2 ^ width - 1) ∧
      ((0 : ℤ) ≤ (first.val : ℤ) ∧ (0 : ℤ) ≤ (second.val : ℤ) ∨ _) ↔ first.val + second.val < 2 ^ width
    zify
    omega
  | signed width =>
    change (_ ∧ first.val + second.val ≤ 2 ^ (width - 1) - 1) ∧ _ ↔
      (_ ∧ first.val + second.val < 2 ^ (width - 1)) ∧ _
    rw [Int.le_sub_one_iff]
    rfl
  | duration =>
    change ((0 : ℤ) ≤ (first.as_nanos : ℤ) + (second.as_nanos : ℤ) ∧
      (first.as_nanos : ℤ) + (second.as_nanos : ℤ) ≤ 1000000000 * 2 ^ 64 - 1) ∧
      ((0 : ℤ) ≤ (first.as_nanos : ℤ) ∧ (0 : ℤ) ≤ (second.as_nanos : ℤ) ∨ _) ↔
        first.as_nanos + second.as_nanos < 1000000000 * 2 ^ 64
    omega

theorem vanishes_iff (index_type : IndexType) (first second : index_type.Time) :
    Vanishes first second ↔ index_type.Exceeds first second := by
  unfold Vanishes
  simp only [followed_by_eq, in_sequence_eq]
  rw [CheckedAddition.none_both_iff]
  have hfirst := index_type.addition.bounds first
  have hsecond := index_type.addition.bounds second
  cases index_type with
  | unsigned width =>
    change (2 : ℤ) ^ width - 1 - 0 < (first.val : ℤ) + (second.val : ℤ) ∨
      (2 : ℤ) ^ width - 1 - 0 < -((first.val : ℤ) + (second.val : ℤ)) ↔ 2 ^ width ≤ first.val + second.val
    zify
    omega
  | signed width =>
    change -2 ^ (width - 1) ≤ first.val ∧ first.val ≤ 2 ^ (width - 1) - 1 at hfirst
    change -2 ^ (width - 1) ≤ second.val ∧ second.val ≤ 2 ^ (width - 1) - 1 at hsecond
    change (2 : ℤ) ^ (width - 1) - 1 - -2 ^ (width - 1) < first.val + second.val ∨
      (2 : ℤ) ^ (width - 1) - 1 - -2 ^ (width - 1) < -(first.val + second.val) ↔
        first.val = -2 ^ (width - 1) ∧ second.val = -2 ^ (width - 1)
    omega
  | duration =>
    change (1000000000 * 2 ^ 64 - 1 - 0 : ℤ) < (first.as_nanos : ℤ) + (second.as_nanos : ℤ) ∨
      (1000000000 * 2 ^ 64 - 1 - 0 : ℤ) < -((first.as_nanos : ℤ) + (second.as_nanos : ℤ)) ↔
        1000000000 * 2 ^ 64 ≤ first.as_nanos + second.as_nanos
    omega

end IndexType

/-! ### The law, type by type -/

namespace TimestampType

instance composesSomewhere :
    (timestamp_type : TimestampType) → ComposesSomewhere timestamp_type.Time timestamp_type.Time
  | .unit => ⟨fun _ => ⟨(), (), rfl, rfl⟩⟩
  | .index index_type => inferInstanceAs (ComposesSomewhere index_type.Time index_type.Time)
  | .product outer inner =>
    have := composesSomewhere outer
    have := composesSomewhere inner
    inferInstanceAs (ComposesSomewhere (Product outer.Time inner.Time) (Product outer.Time inner.Time))

/-- The sums of all coordinates are representable, and no coordinate has opposite signs. -/
def Summable : (timestamp_type : TimestampType) → timestamp_type.Time → timestamp_type.Time → Prop
  | .unit, _, _ => True
  | .index index_type, first, second => index_type.Summable first second
  | .product outer inner, (first : Product outer.Time inner.Time), (second : Product outer.Time inner.Time) =>
    outer.Summable first.outer second.outer ∧ inner.Summable first.inner second.inner

/-- The sum of some coordinate leaves none of its times representable. -/
def Exceeds : (timestamp_type : TimestampType) → timestamp_type.Time → timestamp_type.Time → Prop
  | .unit, _, _ => False
  | .index index_type, first, second => index_type.Exceeds first second
  | .product outer inner, (first : Product outer.Time inner.Time), (second : Product outer.Time inner.Time) =>
    outer.Exceeds first.outer second.outer ∨ inner.Exceeds first.inner second.inner

theorem adds_iff (timestamp_type : TimestampType) (first second : timestamp_type.Time) :
    Adds first second ↔ timestamp_type.Summable first second := by
  induction timestamp_type with
  | unit => exact ⟨fun _ => trivial, fun _ => ⟨(), rfl, fun _ => rfl⟩⟩
  | index index_type => exact index_type.adds_iff first second
  | product outer inner ihouter ihinner =>
    refine (Product.adds_iff (show Product outer.Time inner.Time from first) second).trans ?_
    exact and_congr (ihouter _ _) (ihinner _ _)

theorem vanishes_iff (timestamp_type : TimestampType) (first second : timestamp_type.Time) :
    Vanishes first second ↔ timestamp_type.Exceeds first second := by
  induction timestamp_type with
  | unit => exact ⟨fun h => Option.some_ne_none () h.1, False.elim⟩
  | index index_type => exact index_type.vanishes_iff first second
  | product outer inner ihouter ihinner =>
    refine (Product.vanishes_iff (show Product outer.Time inner.Time from first) second).trans ?_
    exact or_congr (ihouter _ _) (ihinner _ _)

/-- Two summaries compose exactly if their sums are representable and have no opposite signs,
    or some coordinate has no time left. -/
theorem composition_law_iff (timestamp_type : TimestampType) (first second : timestamp_type.Time) :
    Composes first second ↔ timestamp_type.Summable first second ∨ timestamp_type.Exceeds first second := by
  rw [composes_iff, adds_iff, vanishes_iff]

/-- A type without signed integers. -/
def NonNegative : TimestampType → Prop
  | .unit | .index (.unsigned _) | .index .duration => True
  | .index (.signed _) => False
  | .product outer inner => outer.NonNegative ∧ inner.NonNegative

/-- Without signed integers all summaries compose. -/
theorem composes_of_nonNegative {timestamp_type : TimestampType} (h : timestamp_type.NonNegative)
    (first second : timestamp_type.Time) : Composes first second := by
  rw [composition_law_iff]
  induction timestamp_type with
  | unit => exact Or.inl trivial
  | index index_type =>
    cases index_type with
    | unsigned width => exact Nat.lt_or_ge _ _
    | signed width => exact absurd h id
    | duration => exact Nat.lt_or_ge _ _
  | product outer inner ihouter ihinner =>
    rcases ihouter h.1 first.outer second.outer with houter | houter
    · rcases ihinner h.2 first.inner second.inner with hinner | hinner
      · exact Or.inl ⟨houter, hinner⟩
      · exact Or.inr (Or.inr hinner)
    · exact Or.inr (Or.inl houter)

end TimestampType

/-- In `i8` there is no sum of 100 and 100, but -80 is moved by both to 120; and there is the sum
    of 100 and -1, which moves 28, but 100 does not. -/
theorem signed_law_fails :
    ¬ Composes (⟨100, by decide, by decide⟩ : Signed 8) ⟨100, by decide, by decide⟩
    ∧ ¬ Composes (⟨100, by decide, by decide⟩ : Signed 8) ⟨-1, by decide, by decide⟩ := by
  constructor
  · rintro ⟨-, hlaw⟩
    exact absurd (hlaw rfl ⟨-80, by decide, by decide⟩) (by decide)
  · rintro ⟨hlaw, -⟩
    exact absurd (hlaw ⟨99, by decide, by decide⟩ rfl ⟨28, by decide, by decide⟩) (by decide)

end Timely
