/-
  Timely/FrontierCalls.lean
  =========================
  **A mutable antichain over a sequence of calls.**

  Updates may pile up between two rounds, and the contents may be deleted; the
  next `update_iter` still exposes the minimal elements of positive accumulated
  count, and reports how they differ from the ones exposed before.  Counts are
  `i64` in the source, so this holds as long as none of the sums that are taken
  overflows; where one does, a debug build panics and a release build may lose an
  element.
-/
import Timely.FrontierOverflow
import Timely.Timestamp

set_option linter.unusedSectionVars false

namespace Timely

open Library

namespace MutableAntichain

variable {T : Type} [PartialOrder T] [DecidableLE T] [DecidableEq T] [Ord T] [LinearExtension T]

/-- A call of a method that changes the contents. -/
inductive Call (T : Type) where
  | update_iter (updates : List (T × ℤ))
  | update_dirty (time : T) (delta : ℤ)
  | empty

section Perform

variable (round : MutableAntichain T → List (T × ℤ) → List (T × ℤ) × MutableAntichain T)

/-- One call, with rounds of updates made in the given way. -/
def perform (antichain : MutableAntichain T) : Call T → MutableAntichain T
  | .update_iter updates => (round antichain updates).2
  | .update_dirty time delta => antichain.update_dirty time delta
  | .empty => antichain.empty

def perform_all (antichain : MutableAntichain T) (calls : List (Call T)) : MutableAntichain T :=
  calls.foldl (perform round) antichain

end Perform

section PerformWith

variable (round : MutableAntichain T → List (T × ℤ) → Option (List (T × ℤ) × MutableAntichain T))

/-- One call, with rounds of updates made in the given way, which may panic. -/
def perform_with (antichain : MutableAntichain T) : Call T → Option (MutableAntichain T)
  | .update_iter updates => (round antichain updates).map Prod.snd
  | .update_dirty time delta => some (antichain.update_dirty time delta)
  | .empty => some antichain.empty

def perform_all_with (antichain : MutableAntichain T) (calls : List (Call T)) :
    Option (MutableAntichain T) :=
  calls.foldlM (perform_with round) antichain

end PerformWith

/-! ### Calls that go through -/

/-- The absolute values of the deltas that a call brings. -/
def Call.magnitude : Call T → ℕ
  | .update_iter updates => Library.magnitude updates
  | .update_dirty _ delta => delta.natAbs
  | .empty => 0

/-- The absolute values of the deltas that calls bring. -/
def magnitude_of_calls (calls : List (Call T)) : ℕ := (calls.map Call.magnitude).sum

/-- Rounds go through as long as the deltas together do not exceed the limit, and leave no greater
    ones. -/
def GoesThrough (round : MutableAntichain T → List (T × ℤ) → Option (List (T × ℤ) × MutableAntichain T))
    (limit : ℕ) : Prop :=
  ∀ (antichain : MutableAntichain T) (updates : List (T × ℤ)),
    magnitude antichain.updates + magnitude updates ≤ limit →
    ∃ after, round antichain updates = some after ∧
      magnitude after.2.updates ≤ magnitude antichain.updates + magnitude updates

theorem magnitude_zeros (updates : List (T × ℤ)) :
    magnitude (updates.map fun update => (update.1, (0 : ℤ))) = 0 := by
  induction updates with
  | nil => rfl
  | cons update updates ih => rw [List.map_cons, magnitude_cons, ih, Int.natAbs_zero]

section GoesThrough

variable {round : MutableAntichain T → List (T × ℤ) → Option (List (T × ℤ) × MutableAntichain T)}
  {limit : ℕ}

theorem GoesThrough.exists_perform_with (hround : GoesThrough round limit)
    (antichain : MutableAntichain T) (call : Call T)
    (h : magnitude antichain.updates + call.magnitude ≤ limit) :
    ∃ after, perform_with round antichain call = some after ∧
      magnitude after.updates ≤ magnitude antichain.updates + call.magnitude := by
  cases call with
  | update_iter updates =>
    obtain ⟨after, hafter, hle⟩ := hround antichain updates h
    exact ⟨after.2, Option.map_eq_some_iff.mpr ⟨after, hafter, rfl⟩, hle⟩
  | update_dirty time delta =>
    refine ⟨_, rfl, ?_⟩
    rw [update_dirty, magnitude_append, magnitude_cons]
    exact le_rfl
  | empty =>
    refine ⟨_, rfl, ?_⟩
    rw [empty, magnitude_zeros]
    exact Nat.zero_le _

theorem GoesThrough.exists_perform_all_with (hround : GoesThrough round limit)
    (start : MutableAntichain T) (calls : List (Call T))
    (h : magnitude start.updates + magnitude_of_calls calls ≤ limit) :
    ∃ last, perform_all_with round start calls = some last ∧
      magnitude last.updates ≤ magnitude start.updates + magnitude_of_calls calls := by
  induction calls generalizing start with
  | nil => exact ⟨start, rfl, le_rfl⟩
  | cons call calls ih =>
    have hsum : magnitude_of_calls (call :: calls) = call.magnitude + magnitude_of_calls calls :=
      List.sum_cons
    rw [hsum] at h ⊢
    obtain ⟨middle, hmiddle, hle⟩ := hround.exists_perform_with start call (by omega)
    obtain ⟨last, hlast, hle'⟩ := ih middle (by omega)
    refine ⟨last, ?_, by omega⟩
    rw [perform_all_with, List.foldlM_cons, hmiddle]
    exact hlast

/-- After calls that go through, another round does so. -/
theorem GoesThrough.exists_round (hround : GoesThrough round limit) {start : MutableAntichain T}
    {calls : List (Call T)} {updates : List (T × ℤ)}
    (h : magnitude start.updates + magnitude_of_calls calls + magnitude updates ≤ limit) :
    ∃ before after, perform_all_with round start calls = some before ∧ round before updates = some after := by
  obtain ⟨before, hbefore, hle⟩ := hround.exists_perform_all_with start calls (by omega)
  obtain ⟨after, hafter, -⟩ := hround before updates (by omega)
  exact ⟨before, after, hbefore, hafter⟩

end GoesThrough

/-! ### Counts -/

/-- The count of an element after one more call. -/
def accumulate (time : T) (count : ℤ) : Call T → ℤ
  | .update_iter updates => count + tally updates time
  | .update_dirty other delta => count + if other = time then delta else 0
  | .empty => 0

/-- The count of an element after a list of calls. -/
def accumulated (start : MutableAntichain T) (calls : List (Call T)) (time : T) : ℤ :=
  calls.foldl (accumulate time) (start.count_for time)

theorem tally_zeros (updates : List (T × ℤ)) (time : T) :
    tally (updates.map fun update => (update.1, (0 : ℤ))) time = 0 := by
  induction updates with
  | nil => rfl
  | cons update updates ih =>
    rw [List.map_cons, tally_cons, ih, ite_self, add_zero]

/-- A way to make rounds of updates that is exact on whatever has been left dirty. -/
def Exact (round : MutableAntichain T → List (T × ℤ) → List (T × ℤ) × MutableAntichain T) : Prop :=
  ∀ (antichain : MutableAntichain T) (counts : T → ℤ), antichain.Pending counts → ∀ updates,
    Updated antichain updates (round antichain updates).1 (round antichain updates).2

theorem exact_update_iter : Exact (T := T) update_iter :=
  fun _ _ h updates => h.update_iter updates

theorem exact_update_iter_rebuilding : Exact (T := T) update_iter_rebuilding := by
  intro antichain counts h updates
  exact updated_rebuild h.changes_eq h.frontier updates

section Runs

variable {round other : MutableAntichain T → List (T × ℤ) → List (T × ℤ) × MutableAntichain T}

/-- After any calls two exact ways to make rounds have exposed the frontier of the same counts,
    and hold the accumulated ones. -/
theorem pending_perform_all (hround : Exact round) (hother : Exact other)
    {start : MutableAntichain T} (hstart : start.Settled) (calls : List (Call T)) :
    (∃ counts, (perform_all round start calls).Pending counts ∧
      (perform_all other start calls).Pending counts) ∧
    (∀ time, (perform_all round start calls).count_for time = accumulated start calls time) ∧
    ∀ time, (perform_all other start calls).count_for time = accumulated start calls time := by
  induction calls using List.reverseRecOn with
  | nil => exact ⟨⟨_, hstart.pending, hstart.pending⟩, fun _ => rfl, fun _ => rfl⟩
  | append_singleton calls call ih =>
    obtain ⟨⟨counts, hpending, hpending'⟩, hcount, hcount'⟩ := ih
    unfold perform_all at hpending hpending'
    unfold perform_all accumulated at hcount hcount' ⊢
    simp only [List.foldl_append, List.foldl_cons, List.foldl_nil]
    cases call with
    | update_iter updates =>
      have hupdated := hround _ _ hpending updates
      have hupdated' := hother _ _ hpending' updates
      have hafter : ∀ time, (perform round (calls.foldl (perform round) start)
          (.update_iter updates)).count_for time =
          accumulate time (calls.foldl (accumulate time) (start.count_for time)) (.update_iter updates) := by
        intro time
        rw [perform, hupdated.count, hcount]
        rfl
      have hafter' : ∀ time, (perform other (calls.foldl (perform other) start)
          (.update_iter updates)).count_for time =
          accumulate time (calls.foldl (accumulate time) (start.count_for time)) (.update_iter updates) := by
        intro time
        rw [perform, hupdated'.count, hcount']
        rfl
      have hsettled' := hupdated'.settled.pending
      rw [show (other (calls.foldl (perform other) start) updates).2.count_for =
        (round (calls.foldl (perform round) start) updates).2.count_for from
          funext fun time => (hafter' time).trans (hafter time).symm] at hsettled'
      exact ⟨⟨_, hupdated.settled.pending, hsettled'⟩, hafter, hafter'⟩
    | update_dirty time delta =>
      have hdirty : ∀ (antichain : MutableAntichain T) (key : T),
          (antichain.update_dirty time delta).count_for key =
            antichain.count_for key + if time = key then delta else 0 := by
        intro antichain key
        rw [count_for_eq_tally, update_dirty, tally_append, ← count_for_eq_tally, tally_cons, tally_nil,
          add_zero]
      refine ⟨⟨counts, hpending.update_dirty time delta, hpending'.update_dirty time delta⟩, ?_, ?_⟩
      · intro key
        rw [perform, hdirty, hcount]
        rfl
      · intro key
        rw [perform, hdirty, hcount']
        rfl
    | empty =>
      have hempty : ∀ (antichain : MutableAntichain T) (key : T), antichain.empty.count_for key = 0 := by
        intro antichain key
        rw [count_for_eq_tally, empty, tally_zeros]
      exact ⟨⟨counts, hpending.empty, hpending'.empty⟩, fun _ => hempty _ _, fun _ => hempty _ _⟩

end Runs

/-- The reported changes are the arrivals and departures of frontier elements. -/
theorem Updated.mem_changes_iff {before after : MutableAntichain T} {updates changes : List (T × ℤ)}
    (h : Updated before updates changes after) (change : T × ℤ) :
    change ∈ changes ↔
      (change.2 = 1 ∧ change.1 ∈ after.frontier ∧ change.1 ∉ before.frontier) ∨
      (change.2 = -1 ∧ change.1 ∉ after.frontier ∧ change.1 ∈ before.frontier) := by
  constructor
  · intro hmem
    rcases h.mem_changes hmem with ⟨hafter, hbefore, hone⟩ | ⟨hafter, hbefore, hone⟩
    · exact Or.inl ⟨hone, hafter, hbefore⟩
    · exact Or.inr ⟨hone, hafter, hbefore⟩
  · intro hchange
    have hreport : tally changes change.1 = change.2 := by
      rw [h.report]
      rcases hchange with ⟨hone, hafter, hbefore⟩ | ⟨hone, hafter, hbefore⟩
      · rw [if_pos hafter, if_neg hbefore, hone, sub_zero]
      · rw [if_neg hafter, if_pos hbefore, hone, zero_sub]
    have hne : tally changes change.1 ≠ 0 := by
      rw [hreport]
      rcases hchange with ⟨hone, -⟩ | ⟨hone, -⟩
      · rw [hone]
        exact one_ne_zero
      · rw [hone]
        exact neg_ne_zero.mpr one_ne_zero
    obtain ⟨entry, hentry, hkey⟩ := exists_mem_of_tally_ne_zero hne
    have hvalue := tally_of_mem_of_nodup (nodup_keys_of_pairwise h.sorted) hentry
    rw [hkey, hreport] at hvalue
    rwa [show change = entry from Prod.ext hkey.symm hvalue]

/-- Rounds that lead from equal frontiers to equal frontiers report the same changes. -/
theorem Updated.changes_eq {before before' after after' : MutableAntichain T}
    {updates changes updates' changes' : List (T × ℤ)} (h : Updated before updates changes after)
    (h' : Updated before' updates' changes' after')
    (hbefore : ∀ time, time ∈ before'.frontier ↔ time ∈ before.frontier)
    (hafter : ∀ time, time ∈ after'.frontier ↔ time ∈ after.frontier) : changes' = changes := by
  have hperm : changes'.Perm changes := by
    apply (List.perm_ext_iff_of_nodup (List.Nodup.of_map _ (nodup_keys_of_pairwise h'.sorted))
      (List.Nodup.of_map _ (nodup_keys_of_pairwise h.sorted))).mpr
    intro change
    rw [h.mem_changes_iff, h'.mem_changes_iff, hbefore, hafter]
  apply hperm.eq_of_pairwise _ h'.sorted h.sorted
  intro first second _ _ hlt hgt
  exact absurd (Std.OrientedCmp.gt_of_lt hgt) (by
    rw [hlt]
    decide)

/-- With integer addition, after every `update_iter` the frontier lists the minimal elements of
    positive accumulated count, and the drained changes are the difference to the frontier before.
    Rebuilding the frontier in every round gives the same. -/
theorem rounds_exact {start : MutableAntichain T}
    (hstart : start = new ∨ ∃ bottom, start = new_bottom bottom) (calls : List (Call T))
    (updates : List (T × ℤ)) :
    let before := perform_all update_iter start calls
    let after := before.update_iter updates
    let rebuilt := (perform_all update_iter_rebuilding start calls).update_iter_rebuilding updates
    (after.2.frontier.Nodup ∧ ∀ time, time ∈ after.2.frontier ↔
      Minimal (fun other => 0 < accumulated start (calls ++ [.update_iter updates]) other) time) ∧
    (after.1.Nodup ∧ ∀ change, change ∈ after.1 ↔
      (change.2 = 1 ∧ change.1 ∈ after.2.frontier ∧ change.1 ∉ before.frontier) ∨
      (change.2 = -1 ∧ change.1 ∉ after.2.frontier ∧ change.1 ∈ before.frontier)) ∧
    (∀ time, time ∈ rebuilt.2.frontier ↔ time ∈ after.2.frontier) ∧ rebuilt.1 = after.1 := by
  intro before after rebuilt
  have hsettled : start.Settled := by
    rcases hstart with rfl | ⟨bottom, rfl⟩
    · exact settled_new
    · exact settled_new_bottom bottom
  obtain ⟨⟨counts, hpending, hpending'⟩, hcount, hcount'⟩ :=
    pending_perform_all exact_update_iter exact_update_iter_rebuilding hsettled calls
  have hupdated : Updated before updates after.1 after.2 := exact_update_iter _ _ hpending updates
  have hrebuilt := exact_update_iter_rebuilding _ _ hpending' updates
  have hfrontier : IsFrontier after.2.frontier fun time =>
      0 < accumulated start (calls ++ [.update_iter updates]) time := by
    refine hupdated.settled.frontier.congr ?_
    intro time
    rw [hupdated.count, hcount]
    unfold accumulated
    rw [List.foldl_append]
    rfl
  have hsame : ∀ time, time ∈ rebuilt.2.frontier ↔ time ∈ after.2.frontier := by
    refine (hrebuilt.settled.frontier.congr ?_).mem_congr hupdated.settled.frontier
    intro time
    rw [hrebuilt.count, hcount', hupdated.count, hcount]
  refine ⟨⟨hfrontier.nodup, hfrontier.mem_iff⟩,
    ⟨List.Nodup.of_map _ (nodup_keys_of_pairwise hupdated.sorted), hupdated.mem_changes_iff⟩, hsame, ?_⟩
  exact hupdated.changes_eq hrebuilt (hpending'.frontier.mem_congr hpending.frontier) hsame

/-! ### Rounds that may overflow -/

section Overflow

variable {start : MutableAntichain T} {calls : List (Call T)}

theorem perform_with_mono
    {round more : MutableAntichain T → List (T × ℤ) → Option (List (T × ℤ) × MutableAntichain T)}
    (hmore : ∀ {antichain updates after}, round antichain updates = some after →
      more antichain updates = some after)
    {antichain after : MutableAntichain T} {call : Call T}
    (h : perform_with round antichain call = some after) : perform_with more antichain call = some after := by
  cases call with
  | update_iter updates => exact map_mono hmore h
  | update_dirty time delta => exact h
  | empty => exact h

theorem perform_all_with_mono
    {round more : MutableAntichain T → List (T × ℤ) → Option (List (T × ℤ) × MutableAntichain T)}
    (hmore : ∀ {antichain updates after}, round antichain updates = some after →
      more antichain updates = some after)
    {after : MutableAntichain T} (h : perform_all_with round start calls = some after) :
    perform_all_with more start calls = some after :=
  foldlM_mono (perform_with_mono hmore) h

/-- Rounds that do not panic make the calls go through. -/
theorem perform_all_with_some
    (round : MutableAntichain T → List (T × ℤ) → List (T × ℤ) × MutableAntichain T)
    (start : MutableAntichain T) (calls : List (Call T)) :
    perform_all_with (fun antichain updates => some (round antichain updates)) start calls =
      some (perform_all round start calls) := by
  induction calls generalizing start with
  | nil => rfl
  | cons call calls ih =>
    rw [perform_all_with, List.foldlM_cons]
    cases call with
    | update_iter updates => exact ih (round start updates).2
    | update_dirty time delta => exact ih (start.update_dirty time delta)
    | empty => exact ih start.empty

/-- Calls that go through without overflow do what they do with integer addition. -/
theorem perform_all_with_panics {after : MutableAntichain T}
    (h : perform_all_with (update_iter_with (Overflow.panics.add 64)) start calls = some after) :
    after = perform_all update_iter start calls := by
  have hexact : perform_all_with (fun antichain updates => some (antichain.update_iter updates)) start
      calls = some after :=
    perform_all_with_mono (fun hround => congrArg some (update_iter_with_panics hround).symm) h
  rw [perform_all_with_some, Option.some.injEq] at hexact
  exact hexact.symm

theorem perform_all_rebuilding_with_panics {after : MutableAntichain T}
    (h : perform_all_with (update_iter_rebuilding_with (Overflow.panics.add 64)) start calls = some after) :
    after = perform_all update_iter_rebuilding start calls := by
  have hexact : perform_all_with (fun antichain updates => some (antichain.update_iter_rebuilding updates))
      start calls = some after :=
    perform_all_with_mono (fun hround => congrArg some (update_iter_rebuilding_with_panics hround).symm) h
  rw [perform_all_with_some, Option.some.injEq] at hexact
  exact hexact.symm

end Overflow

/-- As long as no sum of counts overflows, and none does if the deltas together stay below `2 ^ 63`:
    after every `update_iter` the frontier lists the minimal elements of positive accumulated count,
    and the drained changes are the difference to the frontier before.  Rebuilding the frontier in
    every round gives the same where it does not overflow either. -/
theorem update_iter_exact {start : MutableAntichain T}
    (hstart : start = new ∨ ∃ bottom, start = new_bottom bottom) (calls : List (Call T))
    (updates : List (T × ℤ)) :
    (magnitude start.updates + magnitude_of_calls calls + magnitude updates < 2 ^ 63 →
      (∃ before after,
        perform_all_with (update_iter_with (Overflow.panics.add 64)) start calls = some before ∧
        before.update_iter_with (Overflow.panics.add 64) updates = some after) ∧
      ∃ rebuilding rebuilt,
        perform_all_with (update_iter_rebuilding_with (Overflow.panics.add 64)) start calls =
          some rebuilding ∧
        rebuilding.update_iter_rebuilding_with (Overflow.panics.add 64) updates = some rebuilt) ∧
    ∀ before after,
      perform_all_with (update_iter_with (Overflow.panics.add 64)) start calls = some before →
      before.update_iter_with (Overflow.panics.add 64) updates = some after →
      (∀ overflow : Overflow,
        perform_all_with (update_iter_with (overflow.add 64)) start calls = some before ∧
        before.update_iter_with (overflow.add 64) updates = some after) ∧
      (after.2.frontier.Nodup ∧ ∀ time, time ∈ after.2.frontier ↔
        Minimal (fun other => 0 < accumulated start (calls ++ [.update_iter updates]) other) time) ∧
      (after.1.Nodup ∧ ∀ change, change ∈ after.1 ↔
        (change.2 = 1 ∧ change.1 ∈ after.2.frontier ∧ change.1 ∉ before.frontier) ∨
        (change.2 = -1 ∧ change.1 ∉ after.2.frontier ∧ change.1 ∈ before.frontier)) ∧
      ∀ rebuilding rebuilt,
        perform_all_with (update_iter_rebuilding_with (Overflow.panics.add 64)) start calls =
          some rebuilding →
        rebuilding.update_iter_rebuilding_with (Overflow.panics.add 64) updates = some rebuilt →
        (∀ time, time ∈ rebuilt.2.frontier ↔ time ∈ after.2.frontier) ∧ rebuilt.1 = after.1 := by
  refine ⟨fun hsmall => ?_, fun before after hbefore hafter => ?_⟩
  · have hadds : AddsWithin (Overflow.panics.add 64)
        (magnitude start.updates + magnitude_of_calls calls + magnitude updates) :=
      Overflow.addsWithin_panics (by omega)
    have hskipping : GoesThrough (T := T) (update_iter_with (Overflow.panics.add 64)) _ :=
      exists_update_iter_with hadds
    have hrebuilding : GoesThrough (T := T) (update_iter_rebuilding_with (Overflow.panics.add 64)) _ :=
      exists_update_iter_rebuilding_with hadds
    exact ⟨hskipping.exists_round le_rfl, hrebuilding.exists_round le_rfl⟩
  · obtain ⟨hfrontier, hchanges, hsame⟩ := rounds_exact hstart calls updates
    have hextends := fun overflow : Overflow => overflow.extends_panics 64
    have hrun := fun overflow =>
      perform_all_with_mono (update_iter_with_mono (hextends overflow)) hbefore
    have hround := fun overflow => update_iter_with_mono (hextends overflow) hafter
    obtain rfl := perform_all_with_panics hbefore
    obtain rfl := update_iter_with_panics hafter
    refine ⟨fun overflow => ⟨hrun overflow, hround overflow⟩, hfrontier, hchanges, ?_⟩
    intro rebuilding rebuilt hrebuilding hrebuilt
    obtain rfl := perform_all_rebuilding_with_panics hrebuilding
    obtain rfl := update_iter_rebuilding_with_panics hrebuilt
    exact hsame

theorem update_iter_exact_example :
    ∃ (before : MutableAntichain (Unsigned 64))
        (after : List (Unsigned 64 × ℤ) × MutableAntichain (Unsigned 64)),
      perform_all_with (update_iter_with (Overflow.panics.add 64)) new
        [.update_dirty 3 1, .empty, .update_dirty 4 2] = some before ∧
      before.update_iter_with (Overflow.panics.add 64) [(5, 1), (4, -1)] = some after ∧
      ∀ time, time ∈ after.2.frontier ↔
        Minimal (fun other => 0 < accumulated (new : MutableAntichain (Unsigned 64))
          ([.update_dirty 3 1, .empty, .update_dirty 4 2] ++ [.update_iter [(5, 1), (4, -1)]]) other) time := by
  obtain ⟨hreturns, hexact⟩ := update_iter_exact (Or.inl rfl)
    [.update_dirty (3 : Unsigned 64) 1, .empty, .update_dirty 4 2] [(5, 1), (4, -1)]
  obtain ⟨⟨before, after, hbefore, hafter⟩, -⟩ := hreturns (by decide)
  exact ⟨before, after, hbefore, hafter, (hexact before after hbefore hafter).2.1.2⟩

/-- The greatest `i64`, and one more: a debug build panics, and in a release build the sum wraps, so
    that the frontier is empty although the count is positive. -/
theorem update_iter_overflows :
    (perform_all_with (update_iter_with (Overflow.panics.add 64)) (new : MutableAntichain (Unsigned 64))
      [.update_iter [(5, 9223372036854775807)], .update_iter [(5, 1)]]) = none ∧
    (∃ after, perform_all_with (update_iter_with (Overflow.wraps.add 64))
        (new : MutableAntichain (Unsigned 64))
        [.update_iter [(5, 9223372036854775807)], .update_iter [(5, 1)]] = some after ∧
      after.frontier = []) ∧
    Minimal (fun other => 0 < accumulated (new : MutableAntichain (Unsigned 64))
      [.update_iter [(5, 9223372036854775807)], .update_iter [(5, 1)]] other) 5 := by
  refine ⟨by decide, ⟨_, rfl, by decide⟩, by decide, fun other hpositive hle => ?_⟩
  by_contra hnot
  have hne : (5 : Unsigned 64) ≠ other := fun heq => hnot (le_of_eq heq)
  have hzero : accumulated (new : MutableAntichain (Unsigned 64))
      [.update_iter [(5, 9223372036854775807)], .update_iter [(5, 1)]] other = 0 := by
    simp [accumulated, accumulate, tally_cons, hne, new, count_for]
  simp only [hzero, lt_irrefl] at hpositive

end MutableAntichain

end Timely
