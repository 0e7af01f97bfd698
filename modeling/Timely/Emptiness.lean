/-
  Timely/Emptiness.lean
  =====================
  **Zeros in a change batch** (`timely/src/progress/change_batch.rs`,
  `is_empty` and `compact`).

  A batch compacts only where there are two updates to compare, and `is_empty`
  answers from the length of the clean prefix where that is long enough.  So a
  zero that is put into an empty batch stays there, and the batch is reported
  not to be empty, until another update comes.  Nothing else goes wrong as long
  as no sum leaves the range of an `i64`: in all other batches, after any calls,
  `is_empty` is exact and no zero is yielded.
-/
import Timely.BatchOverflow

set_option linter.unusedSectionVars false

namespace Timely

open Library

namespace ChangeBatch

variable {K : Type} [Ord K] [DecidableEq K] [Std.TransOrd K] [Std.LawfulEqOrd K]

/-- All there is in the batch is one update, of value zero. -/
def LoneZero (batch : ChangeBatch K) : Prop := ∃ key, batch.updates = [(key, 0)]

/-- A clean prefix of two or more updates holds no zero.  A shorter one may have been called
    clean without being looked at. -/
def CleanNonZero (batch : ChangeBatch K) : Prop :=
  1 < batch.clean → ∀ update ∈ batch.updates.take batch.clean, update.2 ≠ 0

/-! ### The clean prefix after any calls -/

theorem cleanNonZero_new : (new : ChangeBatch K).CleanNonZero :=
  fun _ _ hupdate => absurd hupdate List.not_mem_nil

theorem CleanNonZero.append {batch : ChangeBatch K} (h : batch.CleanNonZero) (more : List (K × ℤ)) :
    (batch.append more).CleanNonZero := by
  intro hclean update hupdate
  change update ∈ (batch.updates ++ more).take batch.clean at hupdate
  rw [List.take_append_of_le_length batch.clean_le] at hupdate
  exact h hclean update hupdate

/-- What `compact` does: it consolidates two or more updates, or finds nothing to do. -/
theorem compact_cases (batch : ChangeBatch K) :
    batch.compact.updates = consolidate batch.updates ∨
      batch.compact.updates = batch.updates ∧
        (batch.updates.length ≤ 1 ∨ batch.clean = batch.updates.length) := by
  have hle := batch.clean_le
  unfold compact
  split
  case isTrue => exact Or.inl rfl
  case isFalse h =>
    refine Or.inr ⟨rfl, ?_⟩
    by_cases hlong : 1 < batch.updates.length
    · exact Or.inr (le_antisymm hle (Nat.le_of_not_lt fun hclean => h ⟨hclean, hlong⟩))
    · exact Or.inl (Nat.le_of_not_lt hlong)

theorem CleanNonZero.compact {batch : ChangeBatch K} (h : batch.CleanNonZero) :
    batch.compact.CleanNonZero := by
  intro hclean update hupdate
  rw [compact_clean] at hclean
  have hmem : update ∈ batch.compact.updates := List.mem_of_mem_take hupdate
  rcases batch.compact_cases with hsame | ⟨hsame, hshort | hall⟩
  · exact ne_zero_of_mem_consolidate (hsame ▸ hmem)
  · rw [hsame] at hclean
    omega
  · rw [hsame] at hmem hclean
    refine h (hall ▸ hclean) update ?_
    rwa [hall, List.take_length]

theorem CleanNonZero.maintain_bounds {batch : ChangeBatch K} (h : batch.CleanNonZero) :
    batch.maintain_bounds.CleanNonZero := by
  unfold ChangeBatch.maintain_bounds
  split
  · exact h.compact
  · exact h

theorem CleanNonZero.extend {batch : ChangeBatch K} (h : batch.CleanNonZero)
    (iterator : List (K × ℤ)) : (batch.extend iterator).CleanNonZero :=
  (h.append iterator).maintain_bounds

theorem CleanNonZero.is_empty {batch : ChangeBatch K} (h : batch.CleanNonZero) :
    batch.is_empty.2.CleanNonZero := by
  unfold ChangeBatch.is_empty
  split
  · exact h
  · exact h.compact

theorem CleanNonZero.drain_into {batch other : ChangeBatch K} (h : batch.CleanNonZero)
    (hother : other.CleanNonZero) :
    (batch.drain_into other).1.CleanNonZero ∧ (batch.drain_into other).2.CleanNonZero := by
  unfold ChangeBatch.drain_into
  split
  · exact ⟨hother, h⟩
  · exact ⟨cleanNonZero_new, hother.extend batch.updates⟩

theorem cleanNonZero_set {batches : Bool → ChangeBatch K} {batch : ChangeBatch K}
    (h : ∀ side, (batches side).CleanNonZero) (hbatch : batch.CleanNonZero) (side side' : Bool) :
    (Function.update batches side batch side').CleanNonZero := by
  by_cases hside : side' = side
  · rw [hside, Function.update_self]
    exact hbatch
  · rw [Function.update_of_ne hside]
    exact h side'

theorem cleanNonZero_perform {batches : Bool → ChangeBatch K} (h : ∀ side, (batches side).CleanNonZero)
    (call : Call K) (side' : Bool) : (perform batches call side').CleanNonZero := by
  cases call with
  | update side item value => exact cleanNonZero_set h ((h side).extend [(item, value)]) side side'
  | extend side iterator => exact cleanNonZero_set h ((h side).extend iterator) side side'
  | compact side => exact cleanNonZero_set h (h side).compact side side'
  | iter side => exact cleanNonZero_set h (h side).compact side side'
  | is_empty side => exact cleanNonZero_set h (h side).is_empty side side'
  | drain side => exact cleanNonZero_set h cleanNonZero_new side side'
  | drain_into side =>
    obtain ⟨hleft, hinto⟩ := (h side).drain_into (h !side)
    exact cleanNonZero_set (cleanNonZero_set h hleft side) hinto (!side) side'
  | clear side => exact cleanNonZero_set h cleanNonZero_new side side'

theorem cleanNonZero_perform_all (calls : List (Call K)) (side : Bool) :
    (perform_all (fun _ => new) calls side).CleanNonZero := by
  induction calls using List.reverseRecOn generalizing side with
  | nil => exact cleanNonZero_new
  | append_singleton calls call ih =>
    rw [perform_all, List.foldl_append, List.foldl_cons, List.foldl_nil]
    exact cleanNonZero_perform ih call side

/-! ### What is yielded, and what is reported -/

/-- Unless the batch is a lone zero, compacting leaves no zero. -/
theorem CleanNonZero.nonZero_compact {batch : ChangeBatch K} (h : batch.CleanNonZero)
    (hlone : ¬ batch.LoneZero) : batch.compact.NonZero := by
  intro update hupdate hzero
  rcases batch.compact_cases with hsame | ⟨hsame, hdone⟩
  · exact ne_zero_of_mem_consolidate (hsame ▸ hupdate) hzero
  · rw [hsame] at hupdate
    by_cases hlong : 1 < batch.updates.length
    · have hall : batch.clean = batch.updates.length := hdone.resolve_left (Nat.not_le_of_lt hlong)
      refine h (hall ▸ hlong) update ?_ hzero
      rwa [hall, List.take_length]
    · -- the only update there is
      have hone : batch.updates.length = 1 :=
        le_antisymm (Nat.le_of_not_lt hlong) (List.length_pos_of_mem hupdate)
      obtain ⟨only, honly⟩ := List.length_eq_one_iff.mp hone
      rw [honly, List.mem_singleton] at hupdate
      exact hlone ⟨only.1, by rw [honly, ← hzero, hupdate]⟩

/-- Unless the batch is a lone zero, `is_empty` tells whether all sums are zero. -/
theorem CleanNonZero.is_empty_iff {batch : ChangeBatch K} (h : batch.CleanNonZero)
    (hlone : ¬ batch.LoneZero) : batch.is_empty.1 = true ↔ ∀ key, batch.value key = 0 := by
  constructor
  · exact value_of_is_empty
  · intro hzero
    have hnil := compact_updates_eq_nil (h.nonZero_compact hlone) hzero
    have hle := batch.clean_le
    have hfew : ¬ batch.clean > batch.updates.length / 2 := by
      by_cases hlong : 1 < batch.clean
      · have hclean := clean_le_of_value_eq_zero (h hlong) hzero
        omega
      · -- a clean prefix of length one in a batch of length one would be yielded
        intro hmany
        have hone : batch.clean = batch.updates.length := by omega
        rw [compact_of_clean hone] at hnil
        rw [hnil, List.length_nil] at hone hmany
        omega
    unfold ChangeBatch.is_empty
    rw [if_neg hfew, hnil]
    rfl

theorem LoneZero.compact {batch : ChangeBatch K} (h : batch.LoneZero) :
    batch.compact.updates = batch.updates := by
  obtain ⟨key, hkey⟩ := h
  unfold ChangeBatch.compact
  rw [dif_neg]
  rw [hkey]
  simp

/-- A lone zero is reported not to be empty. -/
theorem LoneZero.is_empty {batch : ChangeBatch K} (h : batch.LoneZero) : batch.is_empty.1 = false := by
  have hsame := h.compact
  obtain ⟨key, hkey⟩ := h
  unfold ChangeBatch.is_empty
  split
  · rfl
  · rw [hsame, hkey]
    rfl

theorem LoneZero.value {batch : ChangeBatch K} (h : batch.LoneZero) (key : K) : batch.value key = 0 := by
  obtain ⟨other, hother⟩ := h
  unfold ChangeBatch.value
  rw [hother, tally_cons, tally_nil, ite_self, add_zero]

/-- A batch is exact about zero where `is_empty` tells whether the given sums are all zero, and
    neither `iter` nor `drain` nor `into_inner` yields a zero. -/
structure ExactAboutZero (add : ℤ → ℤ → Option ℤ) (batch : ChangeBatch K) (sums : K → ℤ) : Prop where
  is_empty : ∃ answer, batch.is_empty_with add = some answer ∧ (answer.1 = true ↔ ∀ key, sums key = 0)
  iter : ∃ listed, batch.iter_with add = some listed ∧ ∀ update ∈ listed.1, update.2 ≠ 0
  drain : ∃ drained, batch.drain_with add = some drained ∧ ∀ update ∈ drained.1, update.2 ≠ 0
  into_inner : ∃ inner, batch.into_inner_with add = some inner ∧ ∀ update ∈ inner, update.2 ≠ 0

/-- Where compacting does not overflow a batch is exact about zero unless all there is in it is
    one zero. -/
theorem CleanNonZero.exactAboutZero_iff {batch : ChangeBatch K} (h : batch.CleanNonZero)
    (hfits : batch.CompactFits) (overflow : Overflow) :
    ExactAboutZero (overflow.add 64) batch batch.value ↔ ¬ batch.LoneZero := by
  have hcompact := hfits.compact_with overflow
  constructor
  · intro hexact hlone
    obtain ⟨answer, hanswer, hzero⟩ := hexact.is_empty
    rw [hfits.is_empty_with overflow, Option.some.injEq] at hanswer
    rw [← hanswer, hlone.is_empty] at hzero
    exact Bool.false_ne_true (hzero.mpr hlone.value)
  · intro hlone
    have hnone := h.nonZero_compact hlone
    have hiter : batch.iter_with (overflow.add 64) = some batch.iter := by
      rw [iter_with, hcompact]
      rfl
    have hdrain : batch.drain_with (overflow.add 64) = some batch.drain := by
      rw [drain_with, hcompact]
      rfl
    have hinner : batch.into_inner_with (overflow.add 64) = some batch.into_inner := by
      rw [into_inner_with, hcompact]
      rfl
    exact ⟨⟨_, hfits.is_empty_with overflow, h.is_empty_iff hlone⟩, ⟨_, hiter, hnone⟩,
      ⟨_, hdrain, hnone⟩, ⟨_, hinner, hnone⟩⟩

/-- A batch that is listed without overflow is compacted without overflow. -/
theorem ExactAboutZero.compactFits {batch : ChangeBatch K} {sums : K → ℤ}
    (h : ExactAboutZero (Overflow.panics.add 64) batch sums) : batch.CompactFits := by
  obtain ⟨listed, hlisted, -⟩ := h.iter
  rw [← isSome_compact_with_iff, ← Option.isSome_map]
  exact Option.isSome_of_eq_some hlisted

/-- Whatever is called, as long as no sum that is taken is out of range a batch is exact about zero
    unless all there is in it is one zero.  With a panic for every overflow, it is exact about zero
    in no other case. -/
theorem exact_about_zero_iff (calls : List (Call K)) (side : Bool) :
    (∀ overflow : Overflow, AllFit (fun _ => new) calls →
      (perform_all (fun _ => new) calls side).CompactFits →
      ∃ batches, perform_all_with (overflow.add 64) (fun _ => new) calls = some batches ∧
        (ExactAboutZero (overflow.add 64) (batches side) (perform_all_naively (fun _ _ => 0) calls side) ↔
          ¬ (batches side).LoneZero)) ∧
    ((∃ batches, perform_all_with (Overflow.panics.add 64) (fun _ => new) calls = some batches ∧
        ExactAboutZero (Overflow.panics.add 64) (batches side)
          (perform_all_naively (fun _ _ => 0) calls side)) ↔
      AllFit (fun _ => new) calls ∧ (perform_all (fun _ => new) calls side).CompactFits ∧
        ¬ (perform_all (fun _ => new) calls side).LoneZero) := by
  have hvalue : (perform_all (fun _ => new) calls side).value =
      perform_all_naively (fun _ _ => 0) calls side :=
    congrFun (value_perform_all (fun _ => new) calls) side
  have hclean := cleanNonZero_perform_all calls side
  rw [← hvalue]
  constructor
  · intro overflow hfits hasked
    exact ⟨_, hfits.perform_all_with overflow, hclean.exactAboutZero_iff hasked overflow⟩
  · constructor
    · rintro ⟨batches, hbatches, hexact⟩
      obtain ⟨hfits, rfl⟩ := perform_all_with_panics_iff.mp hbatches
      exact ⟨hfits, hexact.compactFits, (hclean.exactAboutZero_iff hexact.compactFits _).mp hexact⟩
    · rintro ⟨hfits, hasked, hlone⟩
      exact ⟨_, hfits.perform_all_with .panics, (hclean.exactAboutZero_iff hasked _).mpr hlone⟩

/-- A zero beside another update does no harm: it is filtered out. -/
theorem exact_about_zero_iff_example :
    ∃ batches, perform_all_with (Overflow.panics.add 64) (fun _ => (new : ChangeBatch ℕ))
        [.update true 5 0, .update true 3 1] = some batches ∧
      ExactAboutZero (Overflow.panics.add 64) (batches true)
        (perform_all_naively (fun _ _ => 0) [.update true 5 0, .update true 3 1] true) := by
  refine (exact_about_zero_iff [.update true 5 0, .update true 3 1] true).2.mpr ⟨by decide, by decide, ?_⟩
  rintro ⟨key, hlone⟩
  cases hlone

/-- One zero, put into an empty batch: the sums are zero, the batch is reported not to be empty,
    and yields a zero. -/
theorem zero_reported :
    ¬ ∃ batches, perform_all_with (Overflow.panics.add 64) (fun _ => (new : ChangeBatch ℕ))
        [.update true 5 0] = some batches ∧
      ExactAboutZero (Overflow.panics.add 64) (batches true)
        (perform_all_naively (fun _ _ => 0) [.update true (5 : ℕ) 0] true) := by
  rintro ⟨batches, hbatches, hexact⟩
  obtain ⟨-, rfl⟩ := perform_all_with_panics_iff.mp hbatches
  have hlone : (perform_all (fun _ => (new : ChangeBatch ℕ)) [.update true 5 0] true).LoneZero := ⟨5, rfl⟩
  obtain ⟨answer, hanswer, hzero⟩ := hexact.is_empty
  rw [hexact.compactFits.is_empty_with, Option.some.injEq] at hanswer
  rw [← hanswer, hlone.is_empty] at hzero
  refine Bool.false_ne_true (hzero.mpr fun key => ?_)
  simp [perform_all_naively, perform_naively]

end ChangeBatch

end Timely
