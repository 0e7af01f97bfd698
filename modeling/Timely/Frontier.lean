/-
  Timely/Frontier.lean
  ====================
  **Antichains and mutable antichains** (`timely/src/progress/frontier.rs`).

  An `Antichain` keeps the minimal elements of what has been inserted.  A
  `MutableAntichain` keeps a count for every element, exposes the minimal
  elements of positive count, and reports how each round of updates changed
  them.  It rebuilds its frontier only when a pushed update could have changed
  it; `Settled.update_iter` states that skipping the rebuild is not observable.
-/
import Timely.Library.Minimal
import Timely.ChangeBatch

set_option linter.unusedSectionVars false

namespace Timely

open Library

/-! ### Antichains -/

/-- A set of mutually incomparable elements. -/
structure Antichain (T : Type) where
  elements : List T
deriving DecidableEq, Repr

namespace Antichain

variable {T : Type}

/-- Creates a new empty `Antichain`. -/
def new : Antichain T := ⟨[]⟩

/-- Creates a new singleton `Antichain`. -/
def from_elem (element : T) : Antichain T := ⟨[element]⟩

section Insert

variable [PartialOrder T] [DecidableLE T]

/-- Updates the antichain if the element is not greater than or equal to some present
    element; the flag tells whether it was added. -/
def insert (antichain : Antichain T) (element : T) : Bool × Antichain T :=
  if antichain.elements.any (· ≤ element) then (false, antichain)
  else (true, ⟨(antichain.elements.filter fun other => ¬ element ≤ other) ++ [element]⟩)

theorem insert_eq_insertMinimal (antichain : Antichain T) (element : T) :
    (antichain.insert element).1 = (insertMinimal antichain.elements element).1 ∧
      (antichain.insert element).2.elements = (insertMinimal antichain.elements element).2 := by
  unfold insert insertMinimal
  split
  · exact ⟨rfl, rfl⟩
  · exact ⟨rfl, rfl⟩

/-- Some element of the antichain is less than or equal to `time`. -/
def less_equal (antichain : Antichain T) (time : T) : Bool :=
  antichain.elements.any (· ≤ time)

end Insert

end Antichain

/-! ### Mutable antichains -/

/-- A multiset of elements with the frontier of those of positive count. -/
structure MutableAntichain (T : Type) [Ord T] where
  dirty : ℕ
  updates : List (T × ℤ)
  frontier : List T
  changes : ChangeBatch T

namespace MutableAntichain

variable {T : Type} [PartialOrder T] [DecidableLE T] [DecidableEq T] [Ord T]

/-- Creates a new empty `MutableAntichain`. -/
def new : MutableAntichain T := ⟨0, [], [], ChangeBatch.new⟩

/-- Creates a new singleton `MutableAntichain`. -/
def new_bottom (bottom : T) : MutableAntichain T := ⟨0, [(bottom, 1)], [bottom], ChangeBatch.new⟩

/-- Deletes the contents, and records doing so. -/
def empty (antichain : MutableAntichain T) : MutableAntichain T :=
  { antichain with
    updates := antichain.updates.map fun update => (update.1, 0)
    dirty := antichain.updates.length }

/-- A push of one update, which leaves the frontier as it is until the next `update_iter`. -/
def update_dirty (antichain : MutableAntichain T) (time : T) (delta : ℤ) : MutableAntichain T :=
  { antichain with
    updates := antichain.updates ++ [(time, delta)]
    dirty := antichain.dirty + 1 }

/-- Reports the count for a queried time. -/
def count_for (antichain : MutableAntichain T) (query_time : T) : ℤ :=
  ((antichain.updates.filter fun update => update.1 = query_time).map Prod.snd).sum

/-- Returns true if there are no elements in the frontier. -/
def is_empty (antichain : MutableAntichain T) : Bool := antichain.frontier.isEmpty

/-- An update that may change the frontier: it is neither beyond the frontier, nor a
    subtraction from a time not in advance of it. -/
def requires_rebuild (frontier : List T) (update : T × ℤ) : Bool :=
  let beyond_frontier := frontier.any fun least => less_than least update.1
  let before_frontier := !frontier.any fun least => least ≤ update.1
  !(beyond_frontier || (decide (update.2 < 0) && before_frontier))

variable [LinearExtension T]

/-- Takes the frontier of the positive times of consolidated updates, and records how it
    changes. -/
def expose (antichain : MutableAntichain T) (updates : List (T × ℤ)) : MutableAntichain T :=
  let retracted := antichain.frontier.foldl (fun kept time => kept.update time (-1)) antichain.changes
  let frontier := scanMinimal [] ((updates.filter fun update => 0 < update.2).map Prod.fst)
  { dirty := antichain.dirty
    updates := updates
    frontier := frontier
    changes := frontier.foldl (fun kept time => kept.update time 1) retracted }

/-- Sorts and consolidates the updates, and records how the frontier changes. -/
def rebuild (antichain : MutableAntichain T) : MutableAntichain T :=
  antichain.expose (consolidate antichain.updates)

/-- Applies updates to the antichain: the changes of its frontier, and what it becomes. -/
def update_iter (antichain : MutableAntichain T) (updates : List (T × ℤ)) :
    List (T × ℤ) × MutableAntichain T :=
  let pushed : MutableAntichain T :=
    { antichain with
      updates := antichain.updates ++ updates
      dirty := antichain.dirty + updates.length }
  let recent := pushed.updates.drop (pushed.updates.length - pushed.dirty)
  let cleaned : MutableAntichain T := { pushed with dirty := 0 }
  let result := if recent.any (requires_rebuild pushed.frontier) then cleaned.rebuild else cleaned
  (result.changes.drain.1, { result with changes := result.changes.drain.2 })

/-! ### What an update does -/

theorem count_for_eq_tally (antichain : MutableAntichain T) (time : T) :
    antichain.count_for time = tally antichain.updates time := by
  unfold count_for
  induction antichain.updates with
  | nil => rfl
  | cons update updates ih =>
    rw [tally_cons, ← ih]
    by_cases h : update.1 = time
    · rw [List.filter_cons_of_pos (by simpa using h), if_pos h]
      simp
    · rw [List.filter_cons_of_neg (by simpa using h), if_neg h, zero_add]

/-- Nothing is pending, and the frontier is the one of the positive counts. -/
structure Settled (antichain : MutableAntichain T) : Prop where
  dirty_eq : antichain.dirty = 0
  changes_eq : antichain.changes = ChangeBatch.new
  frontier : IsFrontier antichain.frontier fun time => 0 < antichain.count_for time

theorem settled_new : (new : MutableAntichain T).Settled where
  dirty_eq := rfl
  changes_eq := rfl
  frontier := isFrontier_nil fun _ h => absurd h (by simp [new, count_for])

theorem settled_new_bottom (bottom : T) : (new_bottom bottom).Settled where
  dirty_eq := rfl
  changes_eq := rfl
  frontier := by
    have hcount : ∀ time, (new_bottom bottom).count_for time = if bottom = time then 1 else 0 := by
      intro time
      rw [count_for_eq_tally]
      exact (tally_cons _ _ _).trans (add_zero _)
    refine ⟨?_, List.pairwise_singleton _ _, ?_⟩
    · intro time hmem
      rw [hcount, if_pos (List.mem_singleton.mp hmem).symm]
      exact one_pos
    · intro time hpos
      rw [hcount] at hpos
      by_cases heq : bottom = time
      · exact ⟨bottom, List.mem_singleton_self _, le_of_eq heq⟩
      · rw [if_neg heq] at hpos
        exact absurd hpos (lt_irrefl 0)

theorem pairwise_positive_keys {updates : List (T × ℤ)} (h : updates.Pairwise keyLt) :
    ((updates.filter fun update => 0 < update.2).map Prod.fst).Pairwise
      fun first second => ¬ second ≤ first := by
  refine List.pairwise_map.mpr (List.Pairwise.imp ?_ (h.filter _))
  intro first second hlt hle
  have hbefore := LinearExtension.isLE_of_le hle
  exact Std.OrientedCmp.not_isLE_of_lt hlt hbefore

theorem mem_positive_keys {updates : List (T × ℤ)} (h : updates.Pairwise keyLt) (time : T) :
    time ∈ (updates.filter fun update => 0 < update.2).map Prod.fst ↔ 0 < tally updates time := by
  have hnodup := nodup_keys_of_pairwise h
  constructor
  · intro hmem
    obtain ⟨update, hupdate, rfl⟩ := List.mem_map.mp hmem
    rw [List.mem_filter] at hupdate
    rw [tally_of_mem_of_nodup hnodup hupdate.1]
    simpa using hupdate.2
  · intro hpos
    obtain ⟨update, hupdate, hkey, hdelta⟩ := exists_pos_of_tally_pos hpos
    exact List.mem_map.mpr ⟨update, List.mem_filter.mpr ⟨hupdate, by simpa using hdelta⟩, hkey⟩

/-- The frontier taken from consolidated updates is the one of their positive times. -/
theorem isFrontier_expose (antichain : MutableAntichain T) {updates : List (T × ℤ)}
    (h : updates.Pairwise keyLt) :
    IsFrontier (antichain.expose updates).frontier fun time => 0 < tally updates time := by
  have hnone : IsFrontier ([] : List T) fun _ => False := isFrontier_nil fun _ h => h
  have hscan := isFrontier_scanMinimal hnone (pairwise_positive_keys h)
    fun _ h => absurd h List.not_mem_nil
  refine hscan.congr fun time => ?_
  rw [false_or, mem_positive_keys h]

/-- The frontier that `rebuild` computes is the one of the positive counts. -/
theorem isFrontier_rebuild (antichain : MutableAntichain T) :
    IsFrontier antichain.rebuild.frontier fun time => 0 < tally antichain.updates time := by
  refine (antichain.isFrontier_expose (pairwise_consolidate antichain.updates)).congr fun time => ?_
  rw [tally_consolidate]

theorem value_foldl_units (batch : ChangeBatch T) (times : List T) (delta : ℤ) (time : T) :
    (times.foldl (fun kept other => kept.update other delta) batch).value time =
      batch.value time + tally (times.map fun other => (other, delta)) time := by
  have hfold := ChangeBatch.value_foldl_update batch (times.map fun other => (other, delta)) time
  rwa [List.foldl_map] at hfold

theorem nonZero_foldl_units {batch : ChangeBatch T} (h : batch.NonZero) (times : List T) {delta : ℤ}
    (hdelta : delta ≠ 0) :
    (times.foldl (fun kept other => kept.update other delta) batch).NonZero := by
  have hfold := h.foldl_update (times.map fun other => (other, delta)) (by
    intro update hupdate
    obtain ⟨other, _, rfl⟩ := List.mem_map.mp hupdate
    exact hdelta)
  rwa [List.foldl_map] at hfold

/-- The drained changes are the difference of the two frontiers. -/
theorem tally_changes_expose {antichain : MutableAntichain T} (hchanges : antichain.changes = ChangeBatch.new)
    (hnodup : antichain.frontier.Nodup) {updates : List (T × ℤ)} (hupdates : updates.Pairwise keyLt)
    (time : T) :
    tally (antichain.expose updates).changes.drain.1 time =
      (if time ∈ (antichain.expose updates).frontier then 1 else 0) -
        (if time ∈ antichain.frontier then 1 else 0) := by
  have hempty : antichain.changes.value time = 0 := by rw [hchanges]; rfl
  have hvalue : (antichain.expose updates).changes.value time = antichain.changes.value time +
      tally (antichain.frontier.map fun other => (other, -1)) time +
        tally ((antichain.expose updates).frontier.map fun other => (other, 1)) time := by
    simp only [expose]
    rw [value_foldl_units, value_foldl_units]
  simp only [ChangeBatch.drain, ChangeBatch.tally_compact]
  rw [hvalue, hempty, tally_units_of_nodup (antichain.isFrontier_expose hupdates).nodup,
    tally_neg_of_nodup hnodup]
  split_ifs <;> rfl

theorem nonZero_changes_expose {antichain : MutableAntichain T}
    (hchanges : antichain.changes = ChangeBatch.new) (updates : List (T × ℤ)) :
    (antichain.expose updates).changes.NonZero := by
  simp only [expose]
  apply nonZero_foldl_units _ _ (by decide)
  apply nonZero_foldl_units _ _ (by decide)
  rw [hchanges]
  exact ChangeBatch.nonZero_new

/-- When no pushed update requires a rebuild, the frontier stays the one of the positive
    counts: what lies beyond it is dominated, and subtractions before it add nothing. -/
theorem isFrontier_of_skip {frontier : List T} {counts : T → ℤ} {pushed : List (T × ℤ)}
    (h : IsFrontier frontier fun time => 0 < counts time)
    (hskip : ∀ update ∈ pushed, requires_rebuild frontier update = false) :
    IsFrontier frontier fun time => 0 < counts time + tally pushed time := by
  have hcase : ∀ update ∈ pushed, (∃ least ∈ frontier, least < update.1) ∨
      (update.2 < 0 ∧ ∀ least ∈ frontier, ¬ least ≤ update.1) := by
    intro update hupdate
    have hrequires := hskip update hupdate
    simp only [requires_rebuild, Bool.not_eq_false', Bool.or_eq_true, List.any_eq_true,
      less_than_iff, Bool.and_eq_true, decide_eq_true_eq, Bool.not_eq_true', List.any_eq_false]
      at hrequires
    exact hrequires
  refine ⟨?_, h.incomparable, ?_⟩
  · intro least hleast
    -- no pushed update is at an element of the frontier
    have hzero : tally pushed least = 0 := by
      apply tally_eq_zero_of_not_mem
      rintro update hupdate rfl
      rcases hcase update hupdate with ⟨lower, hlower, hlt⟩ | ⟨_, hnone⟩
      · exact hlt.ne (h.eq_of_le hlower hleast hlt.le)
      · exact hnone _ hleast le_rfl
    rw [hzero, add_zero]
    exact h.present_of_mem least hleast
  · intro time hpos
    by_cases hold : 0 < counts time
    · exact h.covers time hold
    · have hpushed : 0 < tally pushed time := by omega
      obtain ⟨update, hupdate, rfl, hdelta⟩ := exists_pos_of_tally_pos hpushed
      rcases hcase update hupdate with ⟨lower, hlower, hlt⟩ | ⟨hneg, _⟩
      · exact ⟨lower, hlower, hlt.le⟩
      · omega

/-- The outcome of one round of updates: the counts move by the updates, the frontier is
    again the one of the positive counts, and the changes are the exact difference. -/
structure Updated (before : MutableAntichain T) (updates : List (T × ℤ))
    (changes : List (T × ℤ)) (after : MutableAntichain T) : Prop where
  settled : after.Settled
  count : ∀ time, after.count_for time = before.count_for time + tally updates time
  report : ∀ time, tally changes time =
    (if time ∈ after.frontier then 1 else 0) - (if time ∈ before.frontier then 1 else 0)
  sorted : changes.Pairwise keyLt
  nonzero : ∀ change ∈ changes, change.2 ≠ 0

/-- What holds between the rounds of updates: the frontier is the one of the counts at the last
    round, and what came since is dirty.  All counts since then are dirty either, or the contents
    have been deleted, and then the zeros they left are dirty, one for each frontier element. -/
structure Pending (counts : T → ℤ) (antichain : MutableAntichain T) : Prop where
  changes_eq : antichain.changes = ChangeBatch.new
  dirty_le : antichain.dirty ≤ antichain.updates.length
  frontier : IsFrontier antichain.frontier fun time => 0 < counts time
  clean : (∀ time,
      tally (antichain.updates.take (antichain.updates.length - antichain.dirty)) time = counts time) ∨
    (antichain.dirty = antichain.updates.length ∧
      ∀ least ∈ antichain.frontier, ∃ update ∈ antichain.updates, update.1 = least)

theorem Settled.pending {antichain : MutableAntichain T} (h : antichain.Settled) :
    antichain.Pending antichain.count_for where
  changes_eq := h.changes_eq
  dirty_le := by
    rw [h.dirty_eq]
    exact Nat.zero_le _
  frontier := h.frontier
  clean := by
    left
    intro time
    rw [h.dirty_eq, Nat.sub_zero, List.take_length, count_for_eq_tally]

theorem Pending.append {counts : T → ℤ} {antichain : MutableAntichain T}
    (h : antichain.Pending counts) (updates : List (T × ℤ)) :
    Pending counts
      { antichain with
        updates := antichain.updates ++ updates
        dirty := antichain.dirty + updates.length } where
  changes_eq := h.changes_eq
  dirty_le := by
    have hle := h.dirty_le
    simp only [List.length_append]
    omega
  frontier := h.frontier
  clean := by
    have hle := h.dirty_le
    rcases h.clean with hclean | ⟨hall, hzeros⟩
    · left
      intro time
      simp only [List.length_append]
      rw [show antichain.updates.length + updates.length - (antichain.dirty + updates.length) =
        antichain.updates.length - antichain.dirty by omega,
        List.take_append_of_le_length (Nat.sub_le _ _)]
      exact hclean time
    · right
      refine ⟨by simp only [List.length_append, hall], ?_⟩
      intro least hleast
      obtain ⟨update, hupdate, hkey⟩ := hzeros least hleast
      exact ⟨update, List.mem_append_left _ hupdate, hkey⟩

theorem Pending.update_dirty {counts : T → ℤ} {antichain : MutableAntichain T}
    (h : antichain.Pending counts) (time : T) (delta : ℤ) :
    (antichain.update_dirty time delta).Pending counts :=
  h.append [(time, delta)]

/-- Deleting the contents leaves a zero for each element of the frontier. -/
theorem Pending.empty {counts : T → ℤ} {antichain : MutableAntichain T}
    (h : antichain.Pending counts) : antichain.empty.Pending counts where
  changes_eq := h.changes_eq
  dirty_le := by
    simp only [MutableAntichain.empty, List.length_map]
    exact le_rfl
  frontier := h.frontier
  clean := by
    right
    refine ⟨by simp only [MutableAntichain.empty, List.length_map], ?_⟩
    intro least hleast
    have hsome : ∃ update ∈ antichain.updates, update.1 = least := by
      rcases h.clean with hclean | ⟨-, hzeros⟩
      · have hpos := h.frontier.present_of_mem least hleast
        rw [← hclean] at hpos
        obtain ⟨update, hupdate, hkey, -⟩ := exists_pos_of_tally_pos hpos
        exact ⟨update, List.mem_of_mem_take hupdate, hkey⟩
      · exact hzeros least hleast
    obtain ⟨update, hupdate, hkey⟩ := hsome
    exact ⟨(update.1, 0), List.mem_map.mpr ⟨update, hupdate, rfl⟩, hkey⟩

/-- An update at an element of the frontier requires a rebuild. -/
theorem requires_rebuild_of_mem {frontier : List T} {present : T → Prop}
    (h : IsFrontier frontier present) {update : T × ℤ} (hmem : update.1 ∈ frontier) :
    requires_rebuild frontier update = true := by
  have hbeyond : (frontier.any fun least => less_than least update.1) = false := by
    apply List.any_eq_false.mpr
    intro least hleast hless
    have hlt := less_than_iff.mp hless
    exact hlt.ne (h.eq_of_le hleast hmem hlt.le)
  have hbefore : (frontier.any fun least => decide (least ≤ update.1)) = true :=
    List.any_eq_true.mpr ⟨update.1, hmem, decide_eq_true le_rfl⟩
  simp only [requires_rebuild, hbeyond, hbefore, Bool.not_true, Bool.and_false, Bool.or_false,
    Bool.not_false]

/-- When no dirty update requires a rebuild, the frontier is the one of all counts. -/
theorem Pending.isFrontier_of_skip {counts : T → ℤ} {antichain : MutableAntichain T}
    (h : antichain.Pending counts)
    (hskip : ∀ update ∈ antichain.updates.drop (antichain.updates.length - antichain.dirty),
      requires_rebuild antichain.frontier update = false) :
    IsFrontier antichain.frontier fun time => 0 < tally antichain.updates time := by
  have hsplit := List.take_append_drop (antichain.updates.length - antichain.dirty) antichain.updates
  rcases h.clean with hclean | ⟨hall, hzeros⟩
  · refine (MutableAntichain.isFrontier_of_skip h.frontier hskip).congr ?_
    intro time
    have htotal := congrArg (fun updates => tally updates time) hsplit
    simp only [tally_append] at htotal
    rw [← htotal, hclean]
  · -- a zero at a frontier element would require a rebuild, so the frontier is empty
    rw [hall, Nat.sub_self, List.drop_zero] at hskip
    have hnil : antichain.frontier = [] := by
      apply List.eq_nil_iff_forall_not_mem.mpr
      intro least hleast
      obtain ⟨update, hupdate, rfl⟩ := hzeros least hleast
      have hrequires := requires_rebuild_of_mem h.frontier hleast
      rw [hskip update hupdate] at hrequires
      cases hrequires
    have hnone : IsFrontier antichain.frontier fun _ => 0 < (0 : ℤ) := by
      rw [hnil]
      exact isFrontier_nil fun _ hpos => lt_irrefl _ hpos
    refine (MutableAntichain.isFrontier_of_skip hnone hskip).congr ?_
    intro time
    rw [zero_add]

/-- The frontier is rebuilt, and the buffered changes are the difference of the two frontiers. -/
theorem updated_rebuild {antichain : MutableAntichain T} {present : T → Prop}
    (hchanges : antichain.changes = ChangeBatch.new) (hpresent : IsFrontier antichain.frontier present)
    (updates : List (T × ℤ)) {rebuilt : MutableAntichain T}
    (hrebuilt : rebuilt = { antichain with
      updates := antichain.updates ++ updates, dirty := 0 : MutableAntichain T }.rebuild := by rfl) :
    Updated antichain updates rebuilt.changes.drain.1
      { rebuilt with changes := rebuilt.changes.drain.2 } := by
  subst hrebuilt
  have hfrontier := isFrontier_rebuild
    { antichain with updates := antichain.updates ++ updates, dirty := 0 }
  refine ⟨⟨rfl, rfl, ?_⟩, ?_, ?_, ?_, ?_⟩
  · refine hfrontier.congr fun time => ?_
    rw [count_for_eq_tally]
    simp only [rebuild, expose, tally_consolidate]
  · intro time
    rw [count_for_eq_tally, count_for_eq_tally, ← tally_append]
    simp only [rebuild, expose, tally_consolidate]
  · exact tally_changes_expose hchanges hpresent.nodup (pairwise_consolidate _)
  · exact ChangeBatch.compact_sorted _
  · exact (nonZero_changes_expose hchanges _).compact

/-- A round of updates on whatever has been left dirty. -/
theorem Pending.update_iter {counts : T → ℤ} {antichain : MutableAntichain T}
    (h : antichain.Pending counts) (updates : List (T × ℤ)) :
    Updated antichain updates (antichain.update_iter updates).1 (antichain.update_iter updates).2 := by
  have happend := h.append updates
  have hcount : ∀ time, tally (antichain.updates ++ updates) time =
      antichain.count_for time + tally updates time := by
    intro time
    rw [tally_append, count_for_eq_tally]
  unfold MutableAntichain.update_iter
  generalize hrecent : (antichain.updates ++ updates).drop
    ((antichain.updates ++ updates).length - (antichain.dirty + updates.length)) = recent
  by_cases hrebuild : recent.any (requires_rebuild antichain.frontier)
  · simp only [hrecent, hrebuild, if_true]
    exact updated_rebuild h.changes_eq h.frontier updates
  · -- nothing is rebuilt, and nothing has changed
    rw [Bool.not_eq_true] at hrebuild
    simp only [hrecent, hrebuild, Bool.false_eq_true, if_false, h.changes_eq]
    have hskip : ∀ update ∈ recent, requires_rebuild antichain.frontier update = false := by
      simpa [List.any_eq_false] using hrebuild
    have hfrontier := happend.isFrontier_of_skip (by rwa [hrecent])
    refine ⟨⟨rfl, rfl, ?_⟩, ?_, ?_, ?_, ?_⟩
    · refine hfrontier.congr fun time => ?_
      rw [count_for_eq_tally]
    · intro time
      rw [← hcount, count_for_eq_tally]
    · intro time
      change tally (ChangeBatch.new : ChangeBatch T).compact.updates time = _
      rw [ChangeBatch.tally_compact, ChangeBatch.value_new, sub_self]
    · exact ChangeBatch.compact_sorted _
    · exact ChangeBatch.nonZero_new.compact

theorem Settled.update_iter {antichain : MutableAntichain T} (h : antichain.Settled)
    (updates : List (T × ℤ)) :
    Updated antichain updates (antichain.update_iter updates).1 (antichain.update_iter updates).2 :=
  h.pending.update_iter updates

namespace Updated

variable {before after : MutableAntichain T} {updates changes : List (T × ℤ)}

/-- A reported change is the arrival or the departure of a frontier element. -/
theorem mem_changes (h : Updated before updates changes after) {change : T × ℤ}
    (hmem : change ∈ changes) :
    (change.1 ∈ after.frontier ∧ change.1 ∉ before.frontier ∧ change.2 = 1) ∨
      (change.1 ∉ after.frontier ∧ change.1 ∈ before.frontier ∧ change.2 = -1) := by
  have hreport := h.report change.1
  have hnonzero := h.nonzero change hmem
  rw [tally_of_mem_of_nodup (nodup_keys_of_pairwise h.sorted) hmem] at hreport
  by_cases hafter : change.1 ∈ after.frontier
  · by_cases hbefore : change.1 ∈ before.frontier
    · rw [if_pos hafter, if_pos hbefore] at hreport
      omega
    · rw [if_pos hafter, if_neg hbefore] at hreport
      exact Or.inl ⟨hafter, hbefore, by omega⟩
  · by_cases hbefore : change.1 ∈ before.frontier
    · rw [if_neg hafter, if_pos hbefore] at hreport
      exact Or.inr ⟨hafter, hbefore, by omega⟩
    · rw [if_neg hafter, if_neg hbefore] at hreport
      omega

/-- One update at `time` changes the frontier at times in advance of it only. -/
theorem le_of_mem_changes {time : T} {delta : ℤ} (hbefore : before.Settled)
    (h : Updated before [(time, delta)] changes after) {change : T × ℤ}
    (hmem : change ∈ changes) : time ≤ change.1 := by
  have hsame : ∀ other, other ≠ time → after.count_for other = before.count_for other := by
    intro other hne
    rw [h.count, tally_cons, if_neg (Ne.symm hne), tally_nil, add_zero, add_zero]
  by_contra hnot
  have hne : change.1 ≠ time := fun heq => hnot (le_of_eq heq.symm)
  rcases h.mem_changes hmem with ⟨hin, hout, _⟩ | ⟨hout, hin, _⟩
  · -- a new element was already present, so something below it has gone: `time` itself
    have hpos : 0 < before.count_for change.1 := by
      rw [← hsame _ hne]
      exact h.settled.frontier.present_of_mem _ hin
    obtain ⟨least, hleast, hle⟩ := hbefore.frontier.covers _ hpos
    have hlt : least ≠ change.1 := fun heq => hout (heq ▸ hleast)
    have hleastNe : least ≠ time := fun heq => hnot (heq ▸ hle)
    have hleastPos : 0 < after.count_for least := by
      rw [hsame _ hleastNe]
      exact hbefore.frontier.present_of_mem _ hleast
    obtain ⟨lower, hlower, hlowerLe⟩ := h.settled.frontier.covers _ hleastPos
    have heq := h.settled.frontier.eq_of_le hlower hin (hlowerLe.trans hle)
    exact hlt (le_antisymm hle (heq ▸ hlowerLe))
  · -- a departed element is still present, so something below it has come: `time` itself
    have hpos : 0 < after.count_for change.1 := by
      rw [hsame _ hne]
      exact hbefore.frontier.present_of_mem _ hin
    obtain ⟨least, hleast, hle⟩ := h.settled.frontier.covers _ hpos
    have hlt : least ≠ change.1 := fun heq => hout (heq ▸ hleast)
    have hleastNe : least ≠ time := fun heq => hnot (heq ▸ hle)
    have hleastPos : 0 < before.count_for least := by
      rw [← hsame _ hleastNe]
      exact h.settled.frontier.present_of_mem _ hleast
    obtain ⟨lower, hlower, hlowerLe⟩ := hbefore.frontier.covers _ hleastPos
    have heq := hbefore.frontier.eq_of_le hlower hin (hlowerLe.trans hle)
    exact hlt (le_antisymm hle (heq ▸ hlowerLe))

end Updated

end MutableAntichain

end Timely
