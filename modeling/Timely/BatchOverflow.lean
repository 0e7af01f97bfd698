/-
  Timely/BatchOverflow.lean
  =========================
  **Change batches with machine addition** (`timely/src/progress/change_batch.rs`).

  The operations that compact, with the addition of deltas as a parameter.  With
  integer addition they are the operations of `ChangeBatch`; with an addition of
  `i64` they are those of the source, where a sum may panic or wrap.  An operation
  that goes through without overflow is the one with integer addition, and
  `Fits` says when it does: the deltas of each key, in the order in which they are
  held, add up in range wherever the operation adds them.
-/
import Timely.BatchCalls
import Timely.Library.Run

set_option linter.unusedSectionVars false

namespace Timely

open Library

variable {K : Type} [Ord K] [DecidableEq K]

/-! ### Deltas that add up in range -/

/-- The deltas of a key, in the order in which they are held. -/
def deltas (updates : List (K × ℤ)) (key : K) : List ℤ :=
  (updates.filter fun update => update.1 = key).map Prod.snd

/-- The deltas of each key add up to an `i64`, one after the other. -/
def AddUp (updates : List (K × ℤ)) : Prop :=
  ∀ update ∈ updates, AddsInRange 64 (deltas updates update.1)

instance (updates : List (K × ℤ)) : Decidable (AddUp updates) :=
  inferInstanceAs (Decidable (∀ _ ∈ _, _))

theorem deltas_cons (update : K × ℤ) (updates : List (K × ℤ)) (key : K) :
    deltas (update :: updates) key =
      if update.1 = key then update.2 :: deltas updates key else deltas updates key := by
  unfold deltas
  by_cases h : update.1 = key
  · rw [List.filter_cons_of_pos (by simpa using h), List.map_cons, if_pos h]
  · rw [List.filter_cons_of_neg (by simpa using h), if_neg h]

theorem deltas_eq_nil {updates : List (K × ℤ)} {key : K} (h : ∀ update ∈ updates, update.1 ≠ key) :
    deltas updates key = [] := by
  unfold deltas
  rw [List.filter_eq_nil_iff.mpr fun update hupdate => by simpa using h update hupdate, List.map_nil]

theorem addUp_iff {updates : List (K × ℤ)} :
    AddUp updates ↔ ∀ key, AddsInRange 64 (deltas updates key) := by
  constructor
  · intro h key
    by_cases hkey : ∃ update ∈ updates, update.1 = key
    · obtain ⟨update, hupdate, rfl⟩ := hkey
      exact h update hupdate
    · rw [deltas_eq_nil fun update hupdate heq => hkey ⟨update, hupdate, heq⟩]
      trivial
  · intro h update _
    exact h update.1

/-- Two leading deltas of a key can be replaced by their sum, if that is in range. -/
theorem addsInRange_merge {entry next : K × ℤ} (hkey : entry.1 = next.1) (rest : List (K × ℤ)) :
    (∀ key, AddsInRange 64 (deltas (entry :: next :: rest) key)) ↔
      InRange 64 (next.2 + entry.2) ∧
        ∀ key, AddsInRange 64 (deltas ((next.1, next.2 + entry.2) :: rest) key) := by
  have hmerge : ∀ key, AddsInRange 64 (deltas (entry :: next :: rest) key) ↔
      (next.1 = key → InRange 64 (next.2 + entry.2)) ∧
        AddsInRange 64 (deltas ((next.1, next.2 + entry.2) :: rest) key) := by
    intro key
    rw [deltas_cons, deltas_cons, deltas_cons, hkey]
    by_cases heq : next.1 = key
    · rw [if_pos heq, if_pos heq, if_pos heq, addsInRange_cons_cons, add_comm entry.2]
      exact and_congr_left' ⟨fun h _ => h, fun h => h heq⟩
    · rw [if_neg heq, if_neg heq, if_neg heq]
      exact ⟨fun h => ⟨fun hcontra => absurd hcontra heq, h⟩, fun h => h.2⟩
  simp only [hmerge, forall_and, forall_eq']

/-- An only delta of a key needs no addition. -/
theorem addsInRange_skip {entry : K × ℤ} {rest : List (K × ℤ)} (h : ∀ update ∈ rest, update.1 ≠ entry.1) :
    (∀ key, AddsInRange 64 (deltas (entry :: rest) key)) ↔ ∀ key, AddsInRange 64 (deltas rest key) := by
  refine forall_congr' fun key => ?_
  rw [deltas_cons]
  by_cases heq : entry.1 = key
  · subst heq
    rw [if_pos rfl, deltas_eq_nil h]
    exact ⟨fun _ => trivial, fun _ => trivial⟩
  · rw [if_neg heq]

section Sorted

variable [Std.TransOrd K] [Std.LawfulEqOrd K]

/-- Sorting does not change the order in which the deltas of a key are held. -/
theorem deltas_insertionSort (updates : List (K × ℤ)) (key : K) :
    deltas (updates.insertionSort updateBefore) key = deltas updates key := by
  unfold deltas
  congr 1
  refine filter_insertionSort (fun first second hfirst hsecond => ?_) updates
  unfold updateBefore
  rw [of_decide_eq_true hfirst, of_decide_eq_true hsecond]
  exact sortsBefore_refl key

/-- The pass over sorted updates goes through without overflow exactly if the deltas of each
    key add up in range. -/
theorem isSome_sweepFromWith_iff {entry : K × ℤ} {rest : List (K × ℤ)}
    (hsorted : (entry :: rest).Pairwise updateBefore) :
    (sweepFromWith (Overflow.panics.add 64) entry rest).isSome ↔
      ∀ key, AddsInRange 64 (deltas (entry :: rest) key) := by
  induction rest generalizing entry with
  | nil =>
    rw [addsInRange_skip fun _ hmem => absurd hmem List.not_mem_nil]
    exact ⟨fun _ _ => trivial, fun _ => rfl⟩
  | cons next rest ih =>
    have hentry := List.pairwise_cons.mp hsorted
    have hnext := List.pairwise_cons.mp hentry.2
    unfold sweepFromWith
    by_cases hkey : entry.1 = next.1
    · have hmerged : ((next.1, next.2 + entry.2) :: rest).Pairwise updateBefore :=
        List.pairwise_cons.mpr hnext
      have hrest := ih hmerged
      rw [if_pos hkey, addsInRange_merge hkey, ← hrest]
      constructor
      · intro hsome
        obtain ⟨swept, hswept⟩ := Option.isSome_iff_exists.mp hsome
        obtain ⟨sum, hsum, hothers⟩ := Option.bind_eq_some_iff.mp hswept
        obtain ⟨hrange, rfl⟩ := Overflow.add_panics_eq_some hsum
        have hpass := Option.isSome_of_eq_some hothers
        rw [Option.isSome_map] at hpass
        exact ⟨hrange, hpass⟩
      · rintro ⟨hrange, hothers⟩
        rw [Overflow.add_of_inRange hrange, Option.bind_some, Option.isSome_map]
        exact hothers
    · -- the key of the entry does not come again
      have hlt : keyLt entry next := keyLt_of_updateBefore_of_ne (hentry.1 next (by simp)) hkey
      have hgone : ∀ update ∈ next :: rest, update.1 ≠ entry.1 := by
        intro update hupdate
        rcases List.mem_cons.mp hupdate with rfl | hmem
        · exact Ne.symm hkey
        · exact (ne_of_keyLt (keyLt_of_keyLt_of_updateBefore hlt (hnext.1 update hmem))).symm
      rw [if_neg hkey, Option.isSome_map, ih hentry.2, addsInRange_skip hgone]

theorem isSome_consolidateWith_iff (updates : List (K × ℤ)) :
    (consolidateWith (Overflow.panics.add 64) updates).isSome ↔ AddUp updates := by
  have hsorted : (updates.insertionSort updateBefore).Pairwise updateBefore :=
    List.pairwise_insertionSort _ _
  have hsame : (∀ key, AddsInRange 64 (deltas (updates.insertionSort updateBefore) key)) ↔
      AddUp updates := by
    simp only [addUp_iff, deltas_insertionSort]
  unfold consolidateWith
  rw [Option.isSome_map, ← hsame]
  cases hupdates : updates.insertionSort updateBefore with
  | nil => exact ⟨fun _ _ => trivial, fun _ => rfl⟩
  | cons entry rest =>
    rw [hupdates] at hsorted
    exact isSome_sweepFromWith_iff hsorted

end Sorted

/-! ### The operations that compact -/

namespace ChangeBatch

variable [Std.TransOrd K] [Std.LawfulEqOrd K]

section Operations

variable (add : ℤ → ℤ → Option ℤ)

/-- Compact the internal representation, when some of it is not known to be compact. -/
def compact_with (batch : ChangeBatch K) : Option (ChangeBatch K) :=
  if batch.clean < batch.updates.length ∧ 1 < batch.updates.length then
    match h : consolidateWith add batch.updates with
    | none => none
    | some updates =>
      some
        { updates := updates
          clean := updates.length
          clean_le := le_rfl
          clean_sorted := by
            rw [List.take_length]
            exact pairwise_consolidateWith h }
  else some batch.compact

/-- Compacts once more than 32 updates are held and at least half are not clean. -/
def maintain_bounds_with (batch : ChangeBatch K) : Option (ChangeBatch K) :=
  if 32 < batch.updates.length ∧ batch.clean ≤ batch.updates.length >>> 1 then batch.compact_with add
  else some batch

/-- Adds a new update, for `item` with `value`. -/
def update_with (batch : ChangeBatch K) (item : K) (value : ℤ) : Option (ChangeBatch K) :=
  (batch.append [(item, value)]).maintain_bounds_with add

/-- Performs a sequence of updates described by `iterator`. -/
def extend_with (batch : ChangeBatch K) (iterator : List (K × ℤ)) : Option (ChangeBatch K) :=
  (batch.append iterator).maintain_bounds_with add

/-- Iterates over the contents of the map, and the batch this leaves. -/
def iter_with (batch : ChangeBatch K) : Option (List (K × ℤ) × ChangeBatch K) :=
  (batch.compact_with add).map fun compacted => (compacted.updates, compacted)

/-- Extracts the updates from the map, consuming it. -/
def into_inner_with (batch : ChangeBatch K) : Option (List (K × ℤ)) :=
  (batch.compact_with add).map fun compacted => compacted.updates

/-- Drains the set of updates, leaving an empty batch. -/
def drain_with (batch : ChangeBatch K) : Option (List (K × ℤ) × ChangeBatch K) :=
  (batch.compact_with add).map fun compacted => (compacted.updates, new)

/-- True iff all keys have value zero, and the batch this leaves. -/
def is_empty_with (batch : ChangeBatch K) : Option (Bool × ChangeBatch K) :=
  if batch.clean > batch.updates.length / 2 then some (false, batch)
  else (batch.compact_with add).map fun compacted => (compacted.updates.isEmpty, compacted)

/-- Drains `batch` into `other`: the pair is what is left and what `other` becomes. -/
def drain_into_with (batch other : ChangeBatch K) : Option (ChangeBatch K × ChangeBatch K) :=
  if other.updates.isEmpty then some (other, batch)
  else (other.extend_with add batch.updates).map fun into => (new, into)

/-- The batches after a call. -/
def perform_with (batches : Bool → ChangeBatch K) : Call K → Option (Bool → ChangeBatch K)
  | .update side item value => ((batches side).update_with add item value).map (Function.update batches side)
  | .extend side iterator => ((batches side).extend_with add iterator).map (Function.update batches side)
  | .compact side => ((batches side).compact_with add).map (Function.update batches side)
  | .iter side => ((batches side).iter_with add).map fun listed => Function.update batches side listed.2
  | .is_empty side =>
    ((batches side).is_empty_with add).map fun answered => Function.update batches side answered.2
  | .drain side => ((batches side).drain_with add).map fun drained => Function.update batches side drained.2
  | .drain_into side =>
    ((batches side).drain_into_with add (batches !side)).map fun drained =>
      Function.update (Function.update batches side drained.1) (!side) drained.2
  | .clear side => some (Function.update batches side (batches side).clear)

/-- The batches after a list of calls. -/
def perform_all_with (start : Bool → ChangeBatch K) (calls : List (Call K)) :
    Option (Bool → ChangeBatch K) :=
  calls.foldlM (perform_with add) start

end Operations

theorem eq_new_of_drain_with {add : ℤ → ℤ → Option ℤ} {batch : ChangeBatch K}
    {drained : List (K × ℤ) × ChangeBatch K} (h : batch.drain_with add = some drained) :
    drained.2 = new := by
  obtain ⟨compacted, -, rfl⟩ := Option.map_eq_some_iff.mp h
  rfl

/-! ### Integer addition -/

/-- What compacting does: it consolidates two or more updates, or adds nothing. -/
theorem compact_with_cases {add : ℤ → ℤ → Option ℤ} {batch after : ChangeBatch K}
    (h : batch.compact_with add = some after) :
    ((batch.clean < batch.updates.length ∧ 1 < batch.updates.length) ∧
      consolidateWith add batch.updates = some after.updates ∧ after.clean = after.updates.length) ∨
    (¬ (batch.clean < batch.updates.length ∧ 1 < batch.updates.length) ∧ after = batch.compact) := by
  unfold compact_with at h
  by_cases hmany : batch.clean < batch.updates.length ∧ 1 < batch.updates.length
  · rw [if_pos hmany] at h
    split at h
    · cases h
    · rename_i updates hupdates
      cases h
      exact Or.inl ⟨hmany, hupdates, rfl⟩
  · rw [if_neg hmany] at h
    exact Or.inr ⟨hmany, (Option.some.inj h).symm⟩

theorem compact_with_of_consolidateWith {add : ℤ → ℤ → Option ℤ} {batch after : ChangeBatch K}
    (hmany : batch.clean < batch.updates.length ∧ 1 < batch.updates.length)
    (h : consolidateWith add batch.updates = some after.updates)
    (hclean : after.clean = after.updates.length) : batch.compact_with add = some after := by
  unfold compact_with
  rw [if_pos hmany]
  split
  · rename_i hnone
    rw [hnone] at h
    cases h
  · rename_i updates hupdates
    rw [hupdates, Option.some.injEq] at h
    exact congrArg some (ext h ((congrArg List.length h).trans hclean.symm))

section Keys

variable {add : ℤ → ℤ → Option ℤ} {batch after : ChangeBatch K} {P : K → Prop}

/-- Compacting brings in no key. -/
theorem forall_key_of_compact_with (h : batch.compact_with add = some after)
    (hkeys : ∀ update ∈ batch.updates, P update.1) : ∀ update ∈ after.updates, P update.1 := by
  intro update hmem
  have hsource : ∃ source ∈ batch.updates, source.1 = update.1 := by
    rcases compact_with_cases h with ⟨_, hupdates, _⟩ | ⟨_, rfl⟩
    · exact exists_key_of_mem_consolidateWith hupdates hmem
    · exact exists_key_of_mem_compact hmem
  obtain ⟨source, hsource, hkey⟩ := hsource
  rw [← hkey]
  exact hkeys source hsource

/-- Updating a batch brings in no key but the updated one. -/
theorem forall_key_of_update_with {item : K} {delta : ℤ} (h : batch.update_with add item delta = some after)
    (hkeys : ∀ update ∈ batch.updates, P update.1) (hitem : P item) :
    ∀ update ∈ after.updates, P update.1 := by
  have happend : ∀ update ∈ (batch.append [(item, delta)]).updates, P update.1 := by
    intro update hupdate
    rcases List.mem_append.mp hupdate with hold | hnew
    · exact hkeys update hold
    · rw [List.mem_singleton.mp hnew]
      exact hitem
  unfold update_with maintain_bounds_with at h
  split at h
  case isTrue => exact forall_key_of_compact_with h happend
  case isFalse =>
    cases h
    exact happend

end Keys

section Magnitude

variable {add : ℤ → ℤ → Option ℤ} {limit : ℕ} (hadds : AddsWithin add limit)

include hadds

/-- Where the deltas together do not exceed the limit, compacting goes through. -/
theorem exists_compact_with (batch : ChangeBatch K) (h : magnitude batch.updates ≤ limit) :
    ∃ after, batch.compact_with add = some after ∧ magnitude after.updates ≤ magnitude batch.updates := by
  obtain ⟨updates, hupdates, hle⟩ := exists_consolidateWith hadds h
  unfold compact_with
  by_cases hmany : batch.clean < batch.updates.length ∧ 1 < batch.updates.length
  · rw [if_pos hmany]
    split
    · rename_i hnone
      rw [hnone] at hupdates
      cases hupdates
    · rename_i others hothers
      rw [hothers, Option.some.injEq] at hupdates
      rw [← hupdates] at hle
      exact ⟨_, rfl, hle⟩
  · rw [if_neg hmany]
    refine ⟨_, rfl, ?_⟩
    rw [compact, dif_neg hmany]

theorem exists_update_with (batch : ChangeBatch K) (item : K) (delta : ℤ)
    (h : magnitude batch.updates + delta.natAbs ≤ limit) :
    ∃ after, batch.update_with add item delta = some after ∧
      magnitude after.updates ≤ magnitude batch.updates + delta.natAbs := by
  have happend : magnitude (batch.append [(item, delta)]).updates =
      magnitude batch.updates + delta.natAbs := by
    change magnitude (batch.updates ++ [(item, delta)]) = _
    rw [magnitude_append, magnitude_cons]
    rfl
  rw [← happend] at h ⊢
  unfold update_with maintain_bounds_with
  split
  · exact exists_compact_with hadds _ h
  · exact ⟨_, rfl, le_rfl⟩

end Magnitude

theorem compact_with_exact (batch : ChangeBatch K) : batch.compact_with exact_add = some batch.compact := by
  by_cases hmany : batch.clean < batch.updates.length ∧ 1 < batch.updates.length
  · apply compact_with_of_consolidateWith hmany _ batch.compact_clean
    rw [consolidateWith_exact, compact, dif_pos hmany]
  · unfold compact_with
    rw [if_neg hmany]

theorem maintain_bounds_with_exact (batch : ChangeBatch K) :
    batch.maintain_bounds_with exact_add = some batch.maintain_bounds := by
  unfold maintain_bounds_with maintain_bounds
  rw [compact_with_exact]
  split <;> rfl

theorem drain_with_exact (batch : ChangeBatch K) : batch.drain_with exact_add = some batch.drain := by
  rw [drain_with, compact_with_exact]
  rfl

theorem drain_into_with_exact (batch other : ChangeBatch K) :
    batch.drain_into_with exact_add other = some (batch.drain_into other) := by
  unfold drain_into_with drain_into extend_with extend
  rw [maintain_bounds_with_exact]
  split <;> rfl

/-- With integer addition the calls are those of `BatchCalls`. -/
theorem perform_with_exact (batches : Bool → ChangeBatch K) (call : Call K) :
    perform_with exact_add batches call = some (perform batches call) := by
  cases call with
  | update side item value => rw [perform_with, update_with, maintain_bounds_with_exact]; rfl
  | extend side iterator => rw [perform_with, extend_with, maintain_bounds_with_exact]; rfl
  | compact side => rw [perform_with, compact_with_exact]; rfl
  | iter side => rw [perform_with, iter_with, compact_with_exact]; rfl
  | is_empty side =>
    rw [perform_with, perform, is_empty_with, is_empty, compact_with_exact]
    split <;> rfl
  | drain side => rw [perform_with, drain_with_exact]; rfl
  | drain_into side => rw [perform_with, drain_into_with_exact]; rfl
  | clear side => rfl

/-! ### Additions that extend each other -/

section Mono

variable {add more : ℤ → ℤ → Option ℤ} (hextends : Extends add more)

include hextends

theorem compact_with_mono {batch after : ChangeBatch K} (h : batch.compact_with add = some after) :
    batch.compact_with more = some after := by
  rcases compact_with_cases h with ⟨hmany, hupdates, hclean⟩ | ⟨hfew, rfl⟩
  · exact compact_with_of_consolidateWith hmany (consolidateWith_mono hextends hupdates) hclean
  · unfold compact_with
    rw [if_neg hfew]

theorem maintain_bounds_with_mono {batch after : ChangeBatch K}
    (h : batch.maintain_bounds_with add = some after) : batch.maintain_bounds_with more = some after := by
  unfold maintain_bounds_with at h ⊢
  split
  case isTrue hmany =>
    rw [if_pos hmany] at h
    exact compact_with_mono hextends h
  case isFalse hfew =>
    rwa [if_neg hfew] at h

theorem drain_with_mono {batch : ChangeBatch K} {drained : List (K × ℤ) × ChangeBatch K}
    (h : batch.drain_with add = some drained) : batch.drain_with more = some drained :=
  map_mono (compact_with_mono hextends) h

theorem is_empty_with_mono {batch : ChangeBatch K} {answer : Bool × ChangeBatch K}
    (h : batch.is_empty_with add = some answer) : batch.is_empty_with more = some answer := by
  unfold is_empty_with at h ⊢
  split
  case isTrue hmany =>
    rwa [if_pos hmany] at h
  case isFalse hfew =>
    rw [if_neg hfew] at h
    exact map_mono (compact_with_mono hextends) h

theorem drain_into_with_mono {batch other : ChangeBatch K} {drained : ChangeBatch K × ChangeBatch K}
    (h : batch.drain_into_with add other = some drained) :
    batch.drain_into_with more other = some drained := by
  unfold drain_into_with at h ⊢
  split
  case isTrue hempty =>
    rwa [if_pos hempty] at h
  case isFalse hother =>
    rw [if_neg hother] at h
    exact map_mono (maintain_bounds_with_mono hextends) h

theorem perform_with_mono {batches after : Bool → ChangeBatch K} {call : Call K}
    (h : perform_with add batches call = some after) : perform_with more batches call = some after := by
  cases call with
  | update side item value => exact map_mono (maintain_bounds_with_mono hextends) h
  | extend side iterator => exact map_mono (maintain_bounds_with_mono hextends) h
  | compact side => exact map_mono (compact_with_mono hextends) h
  | iter side => exact map_mono (map_mono (compact_with_mono hextends)) h
  | is_empty side => exact map_mono (is_empty_with_mono hextends) h
  | drain side => exact map_mono (drain_with_mono hextends) h
  | drain_into side => exact map_mono (drain_into_with_mono hextends) h
  | clear side => exact h

end Mono

/-! ### Without overflow -/

/-- Compacting the batch takes no sum that is out of range. -/
def CompactFits (batch : ChangeBatch K) : Prop :=
  batch.clean < batch.updates.length ∧ 1 < batch.updates.length → AddUp batch.updates

/-- Neither does it where it is made to keep the bounds. -/
def BoundsFit (batch : ChangeBatch K) : Prop :=
  32 < batch.updates.length ∧ batch.clean ≤ batch.updates.length >>> 1 → batch.CompactFits

/-- A call takes no sum that is out of range. -/
def Fits (batches : Bool → ChangeBatch K) : Call K → Prop
  | .update side item value => ((batches side).append [(item, value)]).BoundsFit
  | .extend side iterator => ((batches side).append iterator).BoundsFit
  | .compact side | .iter side | .drain side => (batches side).CompactFits
  | .is_empty side =>
    ¬ (batches side).clean > (batches side).updates.length / 2 → (batches side).CompactFits
  | .drain_into side =>
    ¬ (batches !side).updates.isEmpty → ((batches !side).append (batches side).updates).BoundsFit
  | .clear _ => True

/-- None of the calls takes a sum that is out of range. -/
def AllFit : (Bool → ChangeBatch K) → List (Call K) → Prop
  | _, [] => True
  | batches, call :: calls => Fits batches call ∧ AllFit (perform batches call) calls

instance (batch : ChangeBatch K) : Decidable batch.CompactFits := inferInstanceAs (Decidable (_ → _))

instance (batch : ChangeBatch K) : Decidable batch.BoundsFit := inferInstanceAs (Decidable (_ → _))

instance Fits.decidable (batches : Bool → ChangeBatch K) : ∀ call : Call K, Decidable (Fits batches call)
  | .update _ _ _ | .extend _ _ => inferInstanceAs (Decidable (BoundsFit _))
  | .compact _ | .iter _ | .drain _ => inferInstanceAs (Decidable (CompactFits _))
  | .is_empty _ | .drain_into _ => inferInstanceAs (Decidable (_ → _))
  | .clear _ => isTrue trivial

instance AllFit.decidable : ∀ (batches : Bool → ChangeBatch K) (calls : List (Call K)),
    Decidable (AllFit batches calls)
  | _, [] => isTrue trivial
  | batches, call :: calls =>
    have := AllFit.decidable (perform batches call) calls
    inferInstanceAs (Decidable (_ ∧ _))

theorem isSome_compact_with_iff (batch : ChangeBatch K) :
    (batch.compact_with (Overflow.panics.add 64)).isSome ↔ batch.CompactFits := by
  unfold CompactFits
  rw [← isSome_consolidateWith_iff]
  constructor
  · intro hsome hmany
    obtain ⟨after, hafter⟩ := Option.isSome_iff_exists.mp hsome
    rcases compact_with_cases hafter with ⟨_, hupdates, _⟩ | ⟨hfew, _⟩
    · exact Option.isSome_of_eq_some hupdates
    · exact absurd hmany hfew
  · intro hfits
    by_cases hmany : batch.clean < batch.updates.length ∧ 1 < batch.updates.length
    · obtain ⟨updates, hupdates⟩ := Option.isSome_iff_exists.mp (hfits hmany)
      have hexact := consolidateWith_mono (extends_exact 64) hupdates
      rw [consolidateWith_exact, Option.some.injEq] at hexact
      have hcompact : batch.compact.updates = updates := by
        rw [compact, dif_pos hmany]
        exact hexact
      exact Option.isSome_of_eq_some (compact_with_of_consolidateWith hmany
        (by rw [hupdates, hcompact]) batch.compact_clean)
    · unfold compact_with
      rw [if_neg hmany]
      rfl

/-- Compacting without overflow is compacting with integer addition, however overflow is
    treated. -/
theorem CompactFits.compact_with {batch : ChangeBatch K} (h : batch.CompactFits) (overflow : Overflow) :
    batch.compact_with (overflow.add 64) = some batch.compact := by
  obtain ⟨after, hafter⟩ := Option.isSome_iff_exists.mp (batch.isSome_compact_with_iff.mpr h)
  have hexact := compact_with_mono (extends_exact 64) hafter
  rw [compact_with_exact, Option.some.injEq] at hexact
  rw [hexact]
  exact compact_with_mono (overflow.extends_panics 64) hafter

theorem CompactFits.is_empty_with {batch : ChangeBatch K} (h : batch.CompactFits) (overflow : Overflow) :
    batch.is_empty_with (overflow.add 64) = some batch.is_empty := by
  unfold ChangeBatch.is_empty_with ChangeBatch.is_empty
  rw [h.compact_with overflow]
  split <;> rfl

theorem isSome_maintain_bounds_with_iff (batch : ChangeBatch K) :
    (batch.maintain_bounds_with (Overflow.panics.add 64)).isSome ↔ batch.BoundsFit := by
  unfold maintain_bounds_with BoundsFit
  by_cases hmany : 32 < batch.updates.length ∧ batch.clean ≤ batch.updates.length >>> 1
  · rw [if_pos hmany, isSome_compact_with_iff]
    exact ⟨fun h _ => h, fun h => h hmany⟩
  · rw [if_neg hmany]
    exact ⟨fun _ h => absurd h hmany, fun _ => rfl⟩

/-- A call goes through without overflow exactly if it takes no sum that is out of range. -/
theorem isSome_perform_with_iff (batches : Bool → ChangeBatch K) (call : Call K) :
    (perform_with (Overflow.panics.add 64) batches call).isSome ↔ Fits batches call := by
  cases call with
  | update side item value =>
    rw [perform_with, Option.isSome_map]
    exact isSome_maintain_bounds_with_iff _
  | extend side iterator =>
    rw [perform_with, Option.isSome_map]
    exact isSome_maintain_bounds_with_iff _
  | compact side =>
    rw [perform_with, Option.isSome_map]
    exact isSome_compact_with_iff _
  | iter side =>
    rw [perform_with, Option.isSome_map, iter_with, Option.isSome_map]
    exact isSome_compact_with_iff _
  | is_empty side =>
    rw [perform_with, Option.isSome_map, is_empty_with, Fits]
    by_cases hmany : (batches side).clean > (batches side).updates.length / 2
    · rw [if_pos hmany]
      exact ⟨fun _ h => absurd hmany h, fun _ => rfl⟩
    · rw [if_neg hmany, Option.isSome_map, isSome_compact_with_iff]
      exact ⟨fun h _ => h, fun h => h hmany⟩
  | drain side =>
    rw [perform_with, Option.isSome_map, drain_with, Option.isSome_map]
    exact isSome_compact_with_iff _
  | drain_into side =>
    rw [perform_with, Option.isSome_map, drain_into_with, Fits]
    by_cases hempty : (batches !side).updates.isEmpty = true
    · rw [if_pos hempty]
      exact ⟨fun _ h => absurd hempty h, fun _ => rfl⟩
    · rw [if_neg hempty, Option.isSome_map, extend_with, isSome_maintain_bounds_with_iff]
      exact ⟨fun h _ => h, fun h => h hempty⟩
  | clear side => exact ⟨fun _ => trivial, fun _ => rfl⟩

/-- A call that goes through without overflow does what it does with integer addition. -/
theorem perform_with_panics {batches after : Bool → ChangeBatch K} {call : Call K}
    (h : perform_with (Overflow.panics.add 64) batches call = some after) :
    after = perform batches call := by
  have hexact := perform_with_mono (extends_exact 64) h
  rw [perform_with_exact, Option.some.injEq] at hexact
  exact hexact.symm

/-- The calls go through without overflow exactly if none takes a sum that is out of range, and
    then do what they do with integer addition. -/
theorem perform_all_with_panics_iff {start after : Bool → ChangeBatch K} {calls : List (Call K)} :
    perform_all_with (Overflow.panics.add 64) start calls = some after ↔
      AllFit start calls ∧ after = perform_all start calls := by
  induction calls generalizing start with
  | nil => exact ⟨fun h => ⟨trivial, (Option.some.inj h).symm⟩, fun h => congrArg some h.2.symm⟩
  | cons call calls ih =>
    rw [AllFit, ← isSome_perform_with_iff, and_assoc]
    constructor
    · intro h
      obtain ⟨middle, hmiddle, hrest⟩ := foldlM_cons_cases h
      obtain rfl := perform_with_panics hmiddle
      exact ⟨Option.isSome_of_eq_some hmiddle, ih.mp hrest⟩
    · rintro ⟨hcall, hcalls⟩
      obtain ⟨middle, hmiddle⟩ := Option.isSome_iff_exists.mp hcall
      obtain rfl := perform_with_panics hmiddle
      rw [perform_all_with, List.foldlM_cons, hmiddle]
      exact ih.mpr hcalls

/-- Calls that take no sum out of range do what they do with integer addition, however overflow is
    treated. -/
theorem AllFit.perform_all_with {start : Bool → ChangeBatch K} {calls : List (Call K)}
    (h : AllFit start calls) (overflow : Overflow) :
    ChangeBatch.perform_all_with (overflow.add 64) start calls = some (perform_all start calls) :=
  foldlM_mono (fun hcall => perform_with_mono (overflow.extends_panics 64) hcall)
    (perform_all_with_panics_iff.mpr ⟨h, rfl⟩)

end ChangeBatch

end Timely
