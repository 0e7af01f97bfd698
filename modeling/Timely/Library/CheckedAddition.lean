/-
  Timely/Library/CheckedAddition.lean
  ===================================
  **Addition on an interval of the integers.**

  Values stand for the integers of an interval around zero, and are added where
  the sum is in the interval.  Adding two values one after the other differs from
  adding their sum where the first addition leaves the interval and the second
  one would come back: the two agree exactly if the values have no opposite signs.
-/
import Mathlib.Algebra.Order.Ring.Int
import Mathlib.Data.Int.Order.Basic

namespace Library

/-- Values for the integers of an interval around zero, with addition that is defined where the
    sum is in the interval. -/
structure CheckedAddition (A : Type*) where
  add : A → A → Option A
  val : A → ℤ
  lower : ℤ
  upper : ℤ
  around_zero : lower ≤ 0 ∧ 0 ≤ upper
  bounds : ∀ value, lower ≤ val value ∧ val value ≤ upper
  exists_val : ∀ {number}, lower ≤ number → number ≤ upper → ∃ value, val value = number
  add_eq_some : ∀ {first second sum}, add first second = some sum ↔ val first + val second = val sum

namespace CheckedAddition

variable {A : Type*} (addition : CheckedAddition A) {first second value sum : A}

/-- The sum is defined where it is in the interval. -/
theorem exists_add_iff : (∃ sum, addition.add first second = some sum) ↔
    addition.lower ≤ addition.val first + addition.val second ∧
      addition.val first + addition.val second ≤ addition.upper := by
  constructor
  · rintro ⟨sum, hsum⟩
    rw [addition.add_eq_some.mp hsum]
    exact addition.bounds sum
  · rintro ⟨hlower, hupper⟩
    obtain ⟨sum, hsum⟩ := addition.exists_val hlower hupper
    exact ⟨sum, addition.add_eq_some.mpr hsum.symm⟩

theorem add_eq_none_iff : addition.add first second = none ↔
    ¬ (addition.lower ≤ addition.val first + addition.val second ∧
      addition.val first + addition.val second ≤ addition.upper) := by
  rw [← exists_add_iff, Option.eq_none_iff_forall_ne_some, not_exists]

/-- Add the first, and then the second. -/
def add_both (first second value : A) : Option A := (addition.add first value).bind (addition.add second)

theorem add_both_eq_some : addition.add_both first second value = some sum ↔
    (addition.lower ≤ addition.val first + addition.val value ∧
      addition.val first + addition.val value ≤ addition.upper) ∧
    addition.val first + addition.val second + addition.val value = addition.val sum := by
  unfold add_both
  rw [Option.bind_eq_some_iff]
  constructor
  · rintro ⟨middle, hmiddle, hsum⟩
    refine ⟨(addition.exists_add_iff).mp ⟨middle, hmiddle⟩, ?_⟩
    rw [addition.add_eq_some] at hmiddle hsum
    omega
  · rintro ⟨hrange, hsum⟩
    obtain ⟨middle, hmiddle⟩ := (addition.exists_add_iff).mpr hrange
    refine ⟨middle, hmiddle, ?_⟩
    rw [addition.add_eq_some] at hmiddle ⊢
    omega

/-- At zero the sum does what the two do. -/
theorem exists_add_both (h : addition.add first second = some sum) :
    ∃ value result, addition.add_both first second value = some result ∧
      addition.add sum value = some result := by
  obtain ⟨zero, hzero⟩ := addition.exists_val addition.around_zero.1 addition.around_zero.2
  have hbounds := addition.bounds first
  rw [addition.add_eq_some] at h
  refine ⟨zero, sum, addition.add_both_eq_some.mpr ⟨?_, ?_⟩, addition.add_eq_some.mpr ?_⟩
  · rwa [hzero, add_zero]
  · rw [hzero, add_zero, h]
  · rw [hzero, add_zero]

/-- With opposite signs, some value is moved by the sum, but out of the interval by the first
    one of the two. -/
theorem exists_disagreement
    (h : 0 < addition.val first ∧ addition.val second < 0 ∨ addition.val first < 0 ∧ 0 < addition.val second)
    (hsum : addition.add first second = some sum) :
    ∃ value, addition.add sum value ≠ addition.add_both first second value := by
  have hfirst := addition.bounds first
  have hsecond := addition.bounds second
  have haround := addition.around_zero
  rw [addition.add_eq_some] at hsum
  obtain ⟨number, hnumber, hout, hin⟩ : ∃ number, (addition.lower ≤ number ∧ number ≤ addition.upper) ∧
      ¬ (addition.lower ≤ addition.val first + number ∧ addition.val first + number ≤ addition.upper) ∧
      (addition.lower ≤ addition.val sum + number ∧ addition.val sum + number ≤ addition.upper) := by
    rcases h with ⟨hpos, hneg⟩ | ⟨hneg, hpos⟩
    · exact ⟨addition.upper - addition.val first + 1, by omega, by omega, by omega⟩
    · exact ⟨addition.lower - addition.val first - 1, by omega, by omega, by omega⟩
  obtain ⟨value, rfl⟩ := addition.exists_val hnumber.1 hnumber.2
  obtain ⟨result, hresult⟩ := addition.exists_add_iff.mpr hin
  refine ⟨value, fun hsame => hout ?_⟩
  exact (addition.add_both_eq_some.mp (hsame.symm.trans hresult)).1

/-- The sum is defined and does what the two do one after the other exactly if it is in the
    interval and the two have no opposite signs. -/
theorem sum_agrees_iff :
    (∃ sum, addition.add first second = some sum ∧
        ∀ value, addition.add sum value = addition.add_both first second value) ↔
      (addition.lower ≤ addition.val first + addition.val second ∧
        addition.val first + addition.val second ≤ addition.upper) ∧
      (0 ≤ addition.val first ∧ 0 ≤ addition.val second ∨
        addition.val first ≤ 0 ∧ addition.val second ≤ 0) := by
  constructor
  · rintro ⟨sum, hsum, hagrees⟩
    refine ⟨addition.exists_add_iff.mp ⟨sum, hsum⟩, ?_⟩
    by_contra hsigns
    obtain ⟨value, hvalue⟩ := addition.exists_disagreement (by omega) hsum
    exact hvalue (hagrees value)
  · rintro ⟨hrange, hsigns⟩
    obtain ⟨sum, hsum⟩ := addition.exists_add_iff.mpr hrange
    refine ⟨sum, hsum, fun value => Option.ext fun result => ?_⟩
    have hvalue := addition.bounds value
    have hresult := addition.bounds result
    rw [addition.add_eq_some] at hsum
    rw [addition.add_both_eq_some, addition.add_eq_some, ← hsum]
    -- the value after the first addition lies between the values before and after both
    exact ⟨fun heq => ⟨by omega, heq⟩, fun h => h.2⟩

/-- The sum is not defined, and no value can be added both, exactly if the sum is longer than
    the interval. -/
theorem none_both_iff :
    (addition.add first second = none ∧ ∀ value, addition.add_both first second value = none) ↔
      addition.upper - addition.lower < addition.val first + addition.val second ∨
        addition.upper - addition.lower < -(addition.val first + addition.val second) := by
  have hfirst := addition.bounds first
  have hsecond := addition.bounds second
  have haround := addition.around_zero
  constructor
  · rintro ⟨hnone, hvalues⟩
    by_contra hshort
    rw [addition.add_eq_none_iff] at hnone
    -- start from the end of the interval that is left last
    obtain ⟨number, hnumber, hmiddle, hlast⟩ : ∃ number,
        (addition.lower ≤ number ∧ number ≤ addition.upper) ∧
        (addition.lower ≤ addition.val first + number ∧ addition.val first + number ≤ addition.upper) ∧
        (addition.lower ≤ addition.val first + addition.val second + number ∧
          addition.val first + addition.val second + number ≤ addition.upper) := by
      by_cases hpos : 0 ≤ addition.val first + addition.val second
      · exact ⟨addition.lower, by omega, by omega, by omega⟩
      · exact ⟨addition.upper, by omega, by omega, by omega⟩
    obtain ⟨value, rfl⟩ := addition.exists_val hnumber.1 hnumber.2
    obtain ⟨result, hresult⟩ := addition.exists_val hlast.1 hlast.2
    have hsome := addition.add_both_eq_some.mpr ⟨hmiddle, hresult.symm⟩
    rw [hvalues value] at hsome
    cases hsome
  · intro hlong
    refine ⟨addition.add_eq_none_iff.mpr (by omega), fun value => ?_⟩
    rw [Option.eq_none_iff_forall_ne_some]
    intro result hresult
    have hvalue := addition.bounds value
    have hbounds := addition.bounds result
    have hsum := (addition.add_both_eq_some.mp hresult).2
    omega

end CheckedAddition

end Library
