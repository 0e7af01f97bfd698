/-
  Timely/Order.lean
  =================
  **Partial orders with a sorting order** (`timely/src/order.rs`).

  A timestamp type carries two orders.  `PartialOrder` (`less_equal`, written `≤`)
  is the one progress tracking reasons about; `Ord` (`compare`) only sorts
  buffers and the propagation worklist, and has to agree with the first:
  whenever `x ≤ y`, `compare x y` does not put `y` first.
-/
import Mathlib.Order.Basic
import Mathlib.Order.WellFounded
import Mathlib.Data.Finite.Prod

namespace Timely

attribute [instance] lexOrd

/-! ### The partial order -/

section PartialOrder

variable {T : Type} [PartialOrder T] [DecidableLE T] [DecidableEq T]

/-- `less_than` is `less_equal` and not equal. -/
def less_than (first second : T) : Bool := decide (first ≤ second) && decide (first ≠ second)

theorem less_than_iff {first second : T} : less_than first second = true ↔ first < second := by
  rw [less_than, Bool.and_eq_true, decide_eq_true_eq, decide_eq_true_eq, lt_iff_le_and_ne]

end PartialOrder

/-! ### The sorting order -/

/-- The `Ord` of a timestamp type is total, separates elements, and extends its
    `PartialOrder`. -/
class LinearExtension (T : Type) [PartialOrder T] [Ord T] : Prop
    extends Std.TransOrd T, Std.LawfulEqOrd T where
  isLE_of_le : ∀ {first second : T}, first ≤ second → (compare first second).isLE

/-- The order in which `sort_by` and the binary heap arrange keys. -/
def sortsBefore {K : Type} [Ord K] (first second : K) : Prop := (compare first second).isLE = true

instance {K : Type} [Ord K] (first second : K) : Decidable (sortsBefore first second) :=
  inferInstanceAs (Decidable (_ = true))

section SortsBefore

variable {K : Type} [Ord K] [Std.TransOrd K]

theorem sortsBefore_refl (key : K) : sortsBefore key key := Std.ReflOrd.isLE_rfl

theorem sortsBefore_trans {first second third : K} (h : sortsBefore first second)
    (h' : sortsBefore second third) : sortsBefore first third := Std.TransOrd.isLE_trans h h'

theorem sortsBefore_total (first second : K) :
    sortsBefore first second ∨ sortsBefore second first := by
  unfold sortsBefore
  rw [Std.OrientedOrd.eq_swap (a := second) (b := first)]
  cases compare first second <;> simp

theorem sortsBefore_antisymm [Std.LawfulEqOrd K] {first second : K}
    (h : sortsBefore first second) (h' : sortsBefore second first) : first = second :=
  Std.LawfulEqOrd.eq_of_compare (Std.OrientedCmp.isLE_antisymm h h')

omit [Std.TransOrd K] in
/-- A lexicographic order arranges pairs by their first components. -/
theorem sortsBefore_fst {L : Type} [Ord L] {first second : K × L}
    (h : sortsBefore first second) : sortsBefore first.1 second.1 := by
  unfold sortsBefore at h ⊢
  change ((compare first.1 second.1).then (compare first.2 second.2)).isLE = true at h
  cases hcompare : compare first.1 second.1 with
  | lt => rfl
  | eq => rfl
  | gt => rw [hcompare] at h; cases h

/-- The order in which `sort_by` arranges updates: by key. -/
def updateBefore (first second : K × ℤ) : Prop := sortsBefore first.1 second.1

instance (first second : K × ℤ) : Decidable (updateBefore first second) :=
  inferInstanceAs (Decidable (sortsBefore _ _))

instance : Std.Total (updateBefore (K := K)) := ⟨fun _ _ => sortsBefore_total _ _⟩

instance : IsTrans (K × ℤ) updateBefore := ⟨fun _ _ _ => sortsBefore_trans⟩

end SortsBefore

/-! ### Nested pairs of timestamps -/

/-- A nested pair of timestamps, one outer and one inner. -/
structure Product (TOuter TInner : Type) where
  outer : TOuter
  inner : TInner
deriving DecidableEq, Repr

namespace Product

variable {TOuter TInner : Type}

/-- `less_equal` compares both coordinates. -/
instance [PartialOrder TOuter] [PartialOrder TInner] : PartialOrder (Product TOuter TInner) where
  le first second := first.outer ≤ second.outer ∧ first.inner ≤ second.inner
  le_refl first := ⟨le_rfl, le_rfl⟩
  le_trans first second third h h' := ⟨h.1.trans h'.1, h.2.trans h'.2⟩
  le_antisymm first second h h' := by
    cases first
    cases second
    exact congr (congrArg Product.mk (h.1.antisymm h'.1)) (h.2.antisymm h'.2)

theorem le_def [PartialOrder TOuter] [PartialOrder TInner] {first second : Product TOuter TInner} :
    first ≤ second ↔ first.outer ≤ second.outer ∧ first.inner ≤ second.inner := Iff.rfl

instance [PartialOrder TOuter] [PartialOrder TInner] [DecidableLE TOuter] [DecidableLE TInner] :
    DecidableLE (Product TOuter TInner) := fun first second =>
  inferInstanceAs (Decidable (first.outer ≤ second.outer ∧ first.inner ≤ second.inner))

/-- The derived `Ord` compares the outer coordinate first. -/
instance [Ord TOuter] [Ord TInner] : Ord (Product TOuter TInner) where
  compare := compareLex (compareOn Product.outer) (compareOn Product.inner)

theorem compare_def [Ord TOuter] [Ord TInner] (first second : Product TOuter TInner) :
    compare first second =
      (compare first.outer second.outer).then (compare first.inner second.inner) := rfl

instance [Ord TOuter] [Ord TInner] [Std.TransOrd TOuter] [Std.TransOrd TInner] :
    Std.TransOrd (Product TOuter TInner) :=
  inferInstanceAs (Std.TransCmp (compareLex (compareOn Product.outer) (compareOn Product.inner)))

instance [Ord TOuter] [Ord TInner] [Std.TransOrd TOuter] [Std.TransOrd TInner]
    [Std.LawfulEqOrd TOuter] [Std.LawfulEqOrd TInner] :
    Std.LawfulEqOrd (Product TOuter TInner) where
  eq_of_compare {first second} h := by
    rw [compare_def, Ordering.then_eq_eq] at h
    cases first
    cases second
    exact congr (congrArg Product.mk (Std.LawfulEqOrd.eq_of_compare h.1))
      (Std.LawfulEqOrd.eq_of_compare h.2)

instance [PartialOrder TOuter] [PartialOrder TInner] [Ord TOuter] [Ord TInner]
    [LinearExtension TOuter] [LinearExtension TInner] :
    LinearExtension (Product TOuter TInner) where
  isLE_of_le {first second} h := by
    have houter := LinearExtension.isLE_of_le h.1
    have hinner := LinearExtension.isLE_of_le h.2
    rw [compare_def]
    cases hcompare : compare first.outer second.outer with
    | lt => rfl
    | eq => exact hinner
    | gt => rw [hcompare] at houter; exact houter

instance [Finite TOuter] [Finite TInner] : Finite (Product TOuter TInner) := by
  refine Finite.of_injective (β := TOuter × TInner) (fun time => (time.outer, time.inner)) ?_
  intro first second h
  cases first
  cases second
  simpa using h

end Product

end Timely
