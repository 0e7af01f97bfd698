/-
  Timely/Timestamp.lean
  =====================
  **Timestamps, path summaries and their refinement**
  (`timely/src/progress/timestamp.rs`, `timely/src/order.rs`).

  A path summary acts on timestamps as a partial function: `results_in` is
  `None` where the action would overflow.  The integer types use `checked_add`
  both to act and to compose; `Product` acts and composes by coordinates.

  `AdvancingSummary` collects what progress tracking needs of such actions:
  they are monotone (and defined on a down-closed set of times), the default
  summary is the identity and every other summary strictly advances.  Unsigned
  integers and nested products of them have these properties.  Signed integers
  do not: a negative summary moves times backwards and overflows on the least
  times while it is still defined on later ones.
-/
import Timely.Order
import Mathlib.Order.Fin.Basic
import Mathlib.Data.Fintype.Order
import Mathlib.Algebra.Order.Ring.Nat
import Mathlib.Algebra.Order.Ring.Int
import Mathlib.Data.Int.Order.Basic
import Mathlib.Tactic.Linarith

namespace Timely

/-! ### Traits -/

/-- A type of timestamps has a minimum value. -/
class Timestamp (T : Type) where
  minimum : T

/-- How a timestamp advances along a dataflow path. -/
class PathSummary (S : Type) (T : outParam Type) extends Inhabited S where
  results_in : S → T → Option T
  followed_by : S → S → Option S

/-- Conversion between the timestamps of a scope and of the scope around it. -/
class Refines (TOuter TInner : Type) where
  to_inner : TOuter → TInner
  to_outer : TInner → TOuter

/-- Path summaries that keep the order of timestamps, and are defined on every timestamp
    earlier than one they are defined on. -/
class MonotoneSummary (S : Type) (T : outParam Type) [PartialOrder T] [PathSummary S T] :
    Prop where
  results_in_mono : ∀ (summary : S) {early late result : T}, early ≤ late →
    PathSummary.results_in summary late = some result →
    ∃ lower, PathSummary.results_in summary early = some lower ∧ lower ≤ result

/-- Monotone path summaries that only ever advance timestamps. -/
class AdvancingSummary (S : Type) (T : outParam Type) [PartialOrder T] [PathSummary S T] :
    Prop extends MonotoneSummary S T where
  results_in_default : ∀ time : T, PathSummary.results_in (default : S) time = some time
  lt_of_results_in : ∀ {summary : S} {time result : T}, summary ≠ default →
    PathSummary.results_in summary time = some result → time < result

section Advancing

variable {S T : Type} [PartialOrder T] [PathSummary S T] [AdvancingSummary S T]

theorem AdvancingSummary.le_of_results_in [DecidableEq S] {summary : S} {time result : T}
    (h : PathSummary.results_in summary time = some result) : time ≤ result := by
  by_cases hdefault : summary = default
  · subst hdefault
    rw [results_in_default] at h
    exact le_of_eq (Option.some.inj h)
  · exact (lt_of_results_in hdefault h).le

end Advancing

/-! ### The unit type -/

instance : Timestamp Unit := ⟨()⟩

instance : PathSummary Unit Unit where
  results_in _ _ := some ()
  followed_by _ _ := some ()

/-! ### Unsigned integers -/

/-- The unsigned integers of a given width: `u8` is `Unsigned 8`. -/
abbrev Unsigned (width : ℕ) : Type := Fin (2 ^ width)

namespace Unsigned

variable {width : ℕ}

instance : Inhabited (Unsigned width) := ⟨⟨0, Nat.two_pow_pos width⟩⟩

instance (value : ℕ) : OfNat (Unsigned width) value :=
  ⟨⟨value % 2 ^ width, Nat.mod_lt value (Nat.two_pow_pos width)⟩⟩

/-- Addition that reports overflow. -/
def checked_add (first second : Unsigned width) : Option (Unsigned width) :=
  if h : first.val + second.val < 2 ^ width then some ⟨first.val + second.val, h⟩ else none

theorem checked_add_eq_some {first second result : Unsigned width} :
    checked_add first second = some result ↔ first.val + second.val = result.val := by
  unfold checked_add
  split
  case isTrue h => simp [Fin.ext_iff]
  case isFalse h =>
    constructor
    · intro hnone
      cases hnone
    · intro hsum
      exact absurd (hsum ▸ result.isLt) h

instance : Timestamp (Unsigned width) := ⟨default⟩

instance : PathSummary (Unsigned width) (Unsigned width) where
  results_in summary time := checked_add summary time
  followed_by first second := checked_add first second

theorem results_in_eq_some {summary time result : Unsigned width} :
    PathSummary.results_in summary time = some result ↔ summary.val + time.val = result.val :=
  checked_add_eq_some

theorem default_val : (default : Unsigned width).val = 0 := rfl

instance : LinearExtension (Unsigned width) where
  isLE_of_le {first second} h := by
    change (compare first.val second.val).isLE
    rw [Std.isLE_compare]
    exact h

/-- The order of `u64`. -/
instance u64_linearExtension : LinearExtension (Unsigned 64) := inferInstance

instance : AdvancingSummary (Unsigned width) (Unsigned width) where
  results_in_mono summary {early late result} hle h := by
    rw [results_in_eq_some] at h
    have hlt : summary.val + early.val < 2 ^ width :=
      lt_of_le_of_lt (Nat.add_le_add_left hle _) (h ▸ result.isLt)
    refine ⟨⟨summary.val + early.val, hlt⟩, results_in_eq_some.mpr rfl, ?_⟩
    rw [Fin.le_def, ← h]
    exact Nat.add_le_add_left hle _
  results_in_default time := by
    rw [results_in_eq_some, default_val, zero_add]
  lt_of_results_in {summary time result} hne h := by
    rw [results_in_eq_some] at h
    have hpos : summary.val ≠ 0 := fun hzero => hne (Fin.ext hzero)
    rw [Fin.lt_def]
    omega

end Unsigned

/-! ### Signed integers -/

/-- The signed integers of a given width: `i8` is `Signed 8`. -/
structure Signed (width : ℕ) where
  val : ℤ
  lower : -2 ^ (width - 1) ≤ val
  upper : val < 2 ^ (width - 1)
deriving DecidableEq, Repr

namespace Signed

variable {width : ℕ}

@[ext] theorem ext {first second : Signed width} (h : first.val = second.val) :
    first = second := by
  cases first
  cases second
  cases h
  rfl

instance : PartialOrder (Signed width) where
  le first second := first.val ≤ second.val
  le_refl time := le_refl time.val
  le_trans _ _ _ hfirst hsecond := Int.le_trans hfirst hsecond
  le_antisymm _ _ hfirst hsecond := ext (Int.le_antisymm hfirst hsecond)

theorem le_def {first second : Signed width} : first ≤ second ↔ first.val ≤ second.val := Iff.rfl

instance : DecidableLE (Signed width) := fun first second =>
  inferInstanceAs (Decidable (first.val ≤ second.val))

instance : Ord (Signed width) where
  compare := compareOn Signed.val

instance : Std.TransOrd (Signed width) := inferInstanceAs (Std.TransCmp (compareOn Signed.val))

instance : LinearExtension (Signed width) where
  eq_of_compare {first second} h :=
    ext (Std.LawfulEqOrd.eq_of_compare (a := first.val) (b := second.val) h)
  isLE_of_le {first second} h := by
    change (compare first.val second.val).isLE
    rw [Std.isLE_compare]
    exact h

instance i8_linearExtension : LinearExtension (Signed 8) := inferInstance

instance : Inhabited (Signed width) := ⟨⟨0, by simp, by positivity⟩⟩

/-- Addition that reports overflow, in either direction. -/
def checked_add (first second : Signed width) : Option (Signed width) :=
  if h : -2 ^ (width - 1) ≤ first.val + second.val ∧ first.val + second.val < 2 ^ (width - 1) then
    some ⟨first.val + second.val, h.1, h.2⟩
  else none

/-- `minimum` is `min_value`. -/
instance : Timestamp (Signed width) := ⟨⟨-2 ^ (width - 1), le_rfl, by
  have : (0 : ℤ) < 2 ^ (width - 1) := by positivity
  omega⟩⟩

instance : PathSummary (Signed width) (Signed width) where
  results_in summary time := checked_add summary time
  followed_by first second := checked_add first second

end Signed

/-! ### Nested pairs -/

namespace Product

variable {TOuter TInner SOuter SInner : Type}

instance [Timestamp TOuter] [Timestamp TInner] : Timestamp (Product TOuter TInner) :=
  ⟨⟨Timestamp.minimum, Timestamp.minimum⟩⟩

instance [PathSummary SOuter TOuter] [PathSummary SInner TInner] :
    PathSummary (Product SOuter SInner) (Product TOuter TInner) where
  default := ⟨default, default⟩
  results_in summary product :=
    (PathSummary.results_in summary.outer product.outer).bind fun outer =>
      (PathSummary.results_in summary.inner product.inner).map fun inner => ⟨outer, inner⟩
  followed_by first second :=
    (PathSummary.followed_by first.outer second.outer).bind fun outer =>
      (PathSummary.followed_by first.inner second.inner).map fun inner => ⟨outer, inner⟩

theorem results_in_eq_some [PathSummary SOuter TOuter] [PathSummary SInner TInner]
    {summary : Product SOuter SInner} {product result : Product TOuter TInner} :
    PathSummary.results_in summary product = some result ↔
      PathSummary.results_in summary.outer product.outer = some result.outer ∧
        PathSummary.results_in summary.inner product.inner = some result.inner := by
  cases result
  simp [PathSummary.results_in, Option.bind_eq_some_iff]

theorem followed_by_eq_some [PathSummary SOuter TOuter] [PathSummary SInner TInner]
    {first second result : Product SOuter SInner} :
    PathSummary.followed_by first second = some result ↔
      PathSummary.followed_by first.outer second.outer = some result.outer ∧
        PathSummary.followed_by first.inner second.inner = some result.inner := by
  cases result
  simp [PathSummary.followed_by, Option.bind_eq_some_iff]

instance [PartialOrder TOuter] [PartialOrder TInner] [PathSummary SOuter TOuter]
    [PathSummary SInner TInner] [DecidableEq SOuter] [DecidableEq SInner]
    [AdvancingSummary SOuter TOuter] [AdvancingSummary SInner TInner] :
    AdvancingSummary (Product SOuter SInner) (Product TOuter TInner) where
  results_in_mono summary {early late result} hle h := by
    rw [results_in_eq_some] at h
    obtain ⟨outer, houter, houterLe⟩ :=
      MonotoneSummary.results_in_mono summary.outer hle.1 h.1
    obtain ⟨inner, hinner, hinnerLe⟩ :=
      MonotoneSummary.results_in_mono summary.inner hle.2 h.2
    exact ⟨⟨outer, inner⟩, results_in_eq_some.mpr ⟨houter, hinner⟩, houterLe, hinnerLe⟩
  results_in_default time := by
    rw [results_in_eq_some]
    exact ⟨AdvancingSummary.results_in_default _, AdvancingSummary.results_in_default _⟩
  lt_of_results_in {summary time result} hne h := by
    rw [results_in_eq_some] at h
    have hle : time ≤ result :=
      ⟨AdvancingSummary.le_of_results_in h.1, AdvancingSummary.le_of_results_in h.2⟩
    refine lt_of_le_of_ne hle fun heq => hne ?_
    -- a coordinate whose summary is not the default would have advanced
    subst heq
    have houter : summary.outer = default := by
      by_contra hno
      exact lt_irrefl _ (AdvancingSummary.lt_of_results_in hno h.1)
    have hinner : summary.inner = default := by
      by_contra hno
      exact lt_irrefl _ (AdvancingSummary.lt_of_results_in hno h.2)
    cases summary
    exact congr (congrArg Product.mk houter) hinner

end Product

/-! ### Refinements -/

/-- All types refine themselves. -/
instance Refines.self (T : Type) : Refines T T where
  to_inner time := time
  to_outer time := time

/-- Every timestamp type with a default refines the unit type. -/
instance Refines.empty (T : Type) [Inhabited T] : Refines Unit T where
  to_inner _ := default
  to_outer _ := ()

/-- A nested pair refines its outer coordinate. -/
instance Refines.product (TOuter TInner : Type) [Timestamp TInner] :
    Refines TOuter (Product TOuter TInner) where
  to_inner outer := ⟨outer, Timestamp.minimum⟩
  to_outer product := product.outer

end Timely
