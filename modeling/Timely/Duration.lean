/-
  Timely/Duration.lean
  ====================
  **Spans of time as timestamps** (`std::time::Duration` in
  `timely/src/progress/timestamp.rs` and `timely/src/order.rs`).

  A `Duration` holds whole seconds and the nanoseconds beyond them.  It stands
  for a number of nanoseconds: its order is the order of these numbers, and
  `checked_add` is their addition, up to the greatest duration.
-/
import Timely.Timestamp

namespace Timely

/-- A span of time: whole seconds, and nanoseconds that make less than a second. -/
structure Duration where
  secs : Unsigned 64
  nanos : ℕ
  nanos_lt : nanos < 1000000000
deriving DecidableEq

namespace Duration

/-- The span in nanoseconds. -/
def as_nanos (duration : Duration) : ℕ := 1000000000 * duration.secs.val + duration.nanos

theorem as_nanos_lt (duration : Duration) : duration.as_nanos < 1000000000 * 2 ^ 64 := by
  have hsecs := duration.secs.isLt
  have hnanos := duration.nanos_lt
  unfold as_nanos
  omega

theorem as_nanos_injective : Function.Injective as_nanos := by
  rintro ⟨⟨secs, hsecs⟩, nanos, hnanos⟩ ⟨⟨secs', hsecs'⟩, nanos', hnanos'⟩ h
  change 1000000000 * secs + nanos = 1000000000 * secs' + nanos' at h
  obtain rfl : secs = secs' := by omega
  obtain rfl : nanos = nanos' := by omega
  rfl

/-- Every number of nanoseconds that fits is a duration. -/
theorem exists_as_nanos {number : ℕ} (h : number < 1000000000 * 2 ^ 64) :
    ∃ duration : Duration, duration.as_nanos = number := by
  have hsecs : number / 1000000000 < 2 ^ 64 := by omega
  refine ⟨⟨⟨number / 1000000000, hsecs⟩, number % 1000000000, by omega⟩, ?_⟩
  change 1000000000 * (number / 1000000000) + number % 1000000000 = number
  omega

/-! ### Orders -/

/-- The derived order compares the seconds first. -/
instance : PartialOrder Duration where
  le first second := first.secs < second.secs ∨ first.secs = second.secs ∧ first.nanos ≤ second.nanos
  le_refl duration := Or.inr ⟨rfl, le_rfl⟩
  le_trans first second third h h' := by
    rcases h with hlt | ⟨heq, hle⟩
    · rcases h' with hlt' | ⟨heq', -⟩
      · exact Or.inl (hlt.trans hlt')
      · exact Or.inl (heq' ▸ hlt)
    · rcases h' with hlt' | ⟨heq', hle'⟩
      · exact Or.inl (heq ▸ hlt')
      · exact Or.inr ⟨heq.trans heq', hle.trans hle'⟩
  le_antisymm first second h h' := by
    rcases h with hlt | ⟨heq, hle⟩
    · rcases h' with hlt' | ⟨heq', -⟩
      · exact absurd hlt' (lt_asymm hlt)
      · exact absurd heq'.symm hlt.ne
    · rcases h' with hlt' | ⟨-, hle'⟩
      · exact absurd heq.symm hlt'.ne
      · cases first
        cases second
        obtain rfl := heq
        obtain rfl := le_antisymm hle hle'
        rfl

instance : DecidableLE Duration := fun first second =>
  inferInstanceAs (Decidable (first.secs < second.secs ∨
    first.secs = second.secs ∧ first.nanos ≤ second.nanos))

instance : DecidableLT Duration := decidableLTOfDecidableLE

/-- Durations are ordered like their numbers of nanoseconds. -/
theorem le_iff {first second : Duration} : first ≤ second ↔ first.as_nanos ≤ second.as_nanos := by
  have hfirst := first.nanos_lt
  have hsecond := second.nanos_lt
  change (first.secs.val < second.secs.val ∨ first.secs = second.secs ∧ first.nanos ≤ second.nanos) ↔ _
  rw [Fin.ext_iff]
  unfold as_nanos
  omega

theorem lt_iff {first second : Duration} : first < second ↔ first.as_nanos < second.as_nanos := by
  rw [lt_iff_le_not_ge, le_iff, le_iff]
  omega

theorem le_total (first second : Duration) : first ≤ second ∨ second ≤ first := by
  rw [le_iff, le_iff]
  exact Nat.le_total _ _

/-- The derived `Ord` compares the seconds first. -/
instance : Ord Duration where
  compare := compareLex (compareOn Duration.secs) (compareOn Duration.nanos)

theorem compare_def (first second : Duration) :
    compare first second = (compare first.secs second.secs).then (compare first.nanos second.nanos) := rfl

instance : Std.TransOrd Duration :=
  inferInstanceAs (Std.TransCmp (compareLex (compareOn Duration.secs) (compareOn Duration.nanos)))

instance : LinearExtension Duration where
  eq_of_compare {first second} h := by
    rw [compare_def, Ordering.then_eq_eq] at h
    have hsecs := Std.LawfulEqOrd.eq_of_compare h.1
    have hnanos := Std.LawfulEqOrd.eq_of_compare h.2
    cases first
    cases second
    obtain rfl := hsecs
    obtain rfl := hnanos
    rfl
  isLE_of_le {first second} h := by
    rw [compare_def]
    rcases h with hlt | ⟨heq, hle⟩
    · have hcompare : compare first.secs second.secs = .lt := by
        change compare first.secs.val second.secs.val = .lt
        rw [Std.compare_eq_lt]
        exact hlt
      rw [hcompare]
      rfl
    · rw [heq, Std.ReflOrd.compare_self]
      change (compare first.nanos second.nanos).isLE
      rw [Std.isLE_compare]
      exact hle

/-! ### Addition -/

/-- `Default` and `minimum` are no time at all. -/
instance : Inhabited Duration := ⟨⟨default, 0, by omega⟩⟩

instance : Timestamp Duration := ⟨default⟩

/-- Addition that reports overflow: the nanoseconds may carry one second. -/
def checked_add (first second : Duration) : Option Duration :=
  (Unsigned.checked_add first.secs second.secs).bind fun secs =>
    if h : first.nanos + second.nanos < 1000000000 then some ⟨secs, first.nanos + second.nanos, h⟩
    else
      (Unsigned.checked_add secs ⟨1, by decide⟩).map fun secs =>
        ⟨secs, first.nanos + second.nanos - 1000000000, by
          have hfirst := first.nanos_lt
          have hsecond := second.nanos_lt
          omega⟩

theorem checked_add_eq_some {first second sum : Duration} :
    checked_add first second = some sum ↔ first.as_nanos + second.as_nanos = sum.as_nanos := by
  have hfirst := first.nanos_lt
  have hsecond := second.nanos_lt
  have hsum := sum.nanos_lt
  have hsums := sum.secs.isLt
  unfold checked_add as_nanos
  rw [Option.bind_eq_some_iff]
  simp only [Unsigned.checked_add_eq_some]
  constructor
  · rintro ⟨secs, hsecs, hrest⟩
    split at hrest
    case isTrue =>
      cases hrest
      change _ = 1000000000 * secs.val + (first.nanos + second.nanos)
      omega
    case isFalse =>
      obtain ⟨carried, hcarried, rfl⟩ := Option.map_eq_some_iff.mp hrest
      rw [Unsigned.checked_add_eq_some] at hcarried
      change secs.val + 1 = carried.val at hcarried
      change _ = 1000000000 * carried.val + (first.nanos + second.nanos - 1000000000)
      omega
  · intro h
    have hfits : first.secs.val + second.secs.val < 2 ^ 64 := by omega
    refine ⟨⟨first.secs.val + second.secs.val, hfits⟩, rfl, ?_⟩
    split
    case isTrue hsmall =>
      have heq : (⟨⟨first.secs.val + second.secs.val, hfits⟩, first.nanos + second.nanos, hsmall⟩ :
          Duration) = sum := by
        apply as_nanos_injective
        change 1000000000 * (first.secs.val + second.secs.val) + (first.nanos + second.nanos) =
          1000000000 * sum.secs.val + sum.nanos
        omega
      rw [heq]
    case isFalse =>
      rw [Option.map_eq_some_iff]
      refine ⟨sum.secs, Unsigned.checked_add_eq_some.mpr ?_, as_nanos_injective ?_⟩
      · change first.secs.val + second.secs.val + 1 = sum.secs.val
        omega
      · change 1000000000 * sum.secs.val + (first.nanos + second.nanos - 1000000000) =
          1000000000 * sum.secs.val + sum.nanos
        omega

instance : PathSummary Duration Duration where
  results_in summary time := checked_add summary time
  followed_by first second := checked_add first second

theorem results_in_eq_some {summary time result : Duration} :
    PathSummary.results_in summary time = some result ↔
      summary.as_nanos + time.as_nanos = result.as_nanos := checked_add_eq_some

theorem as_nanos_default : (default : Duration).as_nanos = 0 := rfl

instance : AdvancingSummary Duration Duration where
  results_in_mono summary {early late result} hle h := by
    rw [results_in_eq_some] at h
    rw [le_iff] at hle
    have hlt : summary.as_nanos + early.as_nanos < 1000000000 * 2 ^ 64 :=
      lt_of_le_of_lt (Nat.add_le_add_left hle _) (h ▸ result.as_nanos_lt)
    obtain ⟨lower, hlower⟩ := exists_as_nanos hlt
    refine ⟨lower, results_in_eq_some.mpr hlower.symm, ?_⟩
    rw [le_iff]
    omega
  results_in_default time := by
    rw [results_in_eq_some, as_nanos_default, zero_add]
  lt_of_results_in {summary time result} hne h := by
    rw [results_in_eq_some] at h
    have hpos : summary.as_nanos ≠ 0 := fun hzero => hne (as_nanos_injective hzero)
    rw [lt_iff]
    omega

end Duration

end Timely
