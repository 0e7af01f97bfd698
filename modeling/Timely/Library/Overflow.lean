/-
  Timely/Library/Overflow.lean
  ============================
  **Addition of signed machine integers.**

  A sum that does not fit its type makes a debug build panic, and wraps around in
  a release build.  An addition is a function that may fail here, so that what is
  computed with one is a function of the addition: `Extends` compares two
  additions, and a computation that succeeds with the first then gives the same
  with the second.  `AddsWithin` bounds the values of which the addition gives a sum, and
  the sum.

  Whether a list of values can be added up without leaving the range depends on
  its running sums, `AddsInRange`.
-/
import Mathlib.Algebra.Group.Nat.Defs
import Mathlib.Data.Int.Basic
import Mathlib.Tactic.Common

namespace Library

/-! ### Ranges and overflow -/

/-- The integers of a signed type with so many bits. -/
def InRange (bits : ℕ) (number : ℤ) : Prop :=
  -((2 ^ bits : ℕ) : ℤ) ≤ 2 * number ∧ 2 * number < ((2 ^ bits : ℕ) : ℤ)

instance (bits : ℕ) (number : ℤ) : Decidable (InRange bits number) :=
  inferInstanceAs (Decidable (_ ∧ _))

/-- What happens to a sum that is out of range. -/
inductive Overflow where
  | panics
  | wraps
deriving DecidableEq, Repr

/-- The sum of two values of a type with so many bits. -/
def Overflow.add (bits : ℕ) : Overflow → ℤ → ℤ → Option ℤ
  | .panics, first, second => if InRange bits (first + second) then some (first + second) else none
  | .wraps, first, second => some ((first + second).bmod (2 ^ bits))

/-- The sum of two integers. -/
def exact_add (first second : ℤ) : Option ℤ := some (first + second)

theorem bmod_of_inRange {bits : ℕ} {number : ℤ} (h : InRange bits number) :
    number.bmod (2 ^ bits) = number := by
  obtain ⟨hlower, hupper⟩ := h
  apply Int.bmod_eq_of_le
  · omega
  · omega

/-- A sum in range is the sum of the integers, however overflow is treated. -/
theorem Overflow.add_of_inRange {bits : ℕ} {first second : ℤ} (h : InRange bits (first + second))
    (overflow : Overflow) : overflow.add bits first second = some (first + second) := by
  cases overflow with
  | panics => exact if_pos h
  | wraps => exact congrArg some (bmod_of_inRange h)

theorem Overflow.add_panics_eq_some {bits : ℕ} {first second sum : ℤ}
    (h : panics.add bits first second = some sum) :
    InRange bits (first + second) ∧ first + second = sum := by
  unfold add at h
  by_cases hrange : InRange bits (first + second)
  · simp only [if_pos hrange, Option.some.injEq] at h
    exact ⟨hrange, h⟩
  · simp only [if_neg hrange, reduceCtorEq] at h

/-- Where the first addition gives a sum, the second one gives the same. -/
def Extends (add more : ℤ → ℤ → Option ℤ) : Prop :=
  ∀ first second sum, add first second = some sum → more first second = some sum

theorem Overflow.extends_panics (bits : ℕ) (overflow : Overflow) :
    Extends (panics.add bits) (overflow.add bits) := by
  intro first second sum h
  obtain ⟨hrange, rfl⟩ := add_panics_eq_some h
  exact overflow.add_of_inRange hrange

theorem extends_exact (bits : ℕ) : Extends (Overflow.panics.add bits) exact_add := by
  intro first second sum h
  obtain ⟨-, rfl⟩ := Overflow.add_panics_eq_some h
  rfl

/-- Values that together do not exceed the limit have a sum, and no sum is greater than the two
    values together. -/
structure AddsWithin (add : ℤ → ℤ → Option ℤ) (limit : ℕ) : Prop where
  exists_sum : ∀ first second, first.natAbs + second.natAbs ≤ limit →
    ∃ sum, add first second = some sum
  natAbs_le : ∀ {first second sum}, add first second = some sum →
    sum.natAbs ≤ first.natAbs + second.natAbs

theorem AddsWithin.mono {add : ℤ → ℤ → Option ℤ} {limit less : ℕ} (h : AddsWithin add limit) (hle : less ≤ limit) :
    AddsWithin add less :=
  ⟨fun first second hless => h.exists_sum first second (Nat.le_trans hless hle), h.natAbs_le⟩

theorem natAbs_bmod_le (number : ℤ) {modulus : ℕ} (h : 0 < modulus) :
    (number.bmod modulus).natAbs ≤ number.natAbs := by
  have hlower := Int.le_bmod (x := number) h
  have hupper := Int.bmod_lt (x := number) h
  by_cases hinside : -((modulus / 2 : ℕ) : ℤ) ≤ number ∧ number < ((modulus + 1) / 2 : ℕ)
  · rw [Int.bmod_eq_of_le (by omega) (by omega)]
  · omega

/-- Wrapping makes no sum greater. -/
theorem Overflow.addsWithin_wraps (bits limit : ℕ) : AddsWithin (wraps.add bits) limit := by
  refine ⟨fun _ _ _ => ⟨_, rfl⟩, fun {first second sum} hsum => ?_⟩
  have hwrapped : (first + second).bmod (2 ^ bits) = sum := Option.some.inj hsum
  rw [← hwrapped]
  exact Nat.le_trans (natAbs_bmod_le _ (Nat.two_pow_pos bits)) (Int.natAbs_add_le first second)

theorem Overflow.addsWithin_panics {bits limit : ℕ} (h : 2 * limit < 2 ^ bits) :
    AddsWithin (panics.add bits) limit := by
  refine ⟨fun first second hlimit => ?_, fun {first second sum} hsum => ?_⟩
  · have hsmall := Int.natAbs_add_le first second
    have hrange : InRange bits (first + second) := ⟨by omega, by omega⟩
    exact ⟨_, add_of_inRange hrange .panics⟩
  · obtain ⟨-, rfl⟩ := add_panics_eq_some hsum
    exact Int.natAbs_add_le first second

/-- What is made of a result is the same where the result is. -/
theorem map_mono {α β : Type*} {first second : Option α} {f : α → β} {last : β}
    (h : ∀ {result}, first = some result → second = some result) (hlast : first.map f = some last) :
    second.map f = some last := by
  obtain ⟨result, hresult, rfl⟩ := Option.map_eq_some_iff.mp hlast
  rw [h hresult, Option.map_some]

/-! ### Running sums -/

/-- Adding the values to a sum, one after the other, stays in range. -/
def SumsInRange (bits : ℕ) : ℤ → List ℤ → Prop
  | _, [] => True
  | sum, value :: values => InRange bits (sum + value) ∧ SumsInRange bits (sum + value) values

/-- Adding the values up, one after the other, stays in range. -/
def AddsInRange (bits : ℕ) : List ℤ → Prop
  | [] => True
  | value :: values => SumsInRange bits value values

instance SumsInRange.decidable (bits : ℕ) : ∀ (sum : ℤ) (values : List ℤ),
    Decidable (SumsInRange bits sum values)
  | _, [] => isTrue trivial
  | sum, value :: values =>
    have := SumsInRange.decidable bits (sum + value) values
    inferInstanceAs (Decidable (_ ∧ _))

instance AddsInRange.decidable (bits : ℕ) : ∀ values : List ℤ, Decidable (AddsInRange bits values)
  | [] => isTrue trivial
  | value :: values => SumsInRange.decidable bits value values

/-- Two leading values can be replaced by their sum, if that is in range. -/
theorem addsInRange_cons_cons {bits : ℕ} {first second : ℤ} {values : List ℤ} :
    AddsInRange bits (first :: second :: values) ↔
      InRange bits (first + second) ∧ AddsInRange bits ((first + second) :: values) :=
  Iff.rfl

end Library
