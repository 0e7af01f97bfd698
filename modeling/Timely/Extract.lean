/-
  Timely/Extract.lean
  ===================
  **Extracting a captured stream**
  (`timely/src/dataflow/operators/capture/extract.rs`, `Extract::extract`).

  All messages are staged, sorted by time, and merged in place: the records of a
  message are moved to the first message of the same time, and the messages that
  are empty then are removed.  What is left is the canonical form of the records
  with their times, for every order in which the events arrive.
-/
import Timely.Capture
import Timely.Library.Grouped
import Timely.Library.StableSort

set_option linter.unusedSectionVars false

namespace Timely

open Library

variable {T D : Type} [LinearOrder T] [LinearOrder D]

namespace Event

/-- The time and the records of a message. -/
def staged : Event T D → Option (T × List D)
  | .progress _ => none
  | .messages time data => some (time, data)

theorem ungroup_staged (events : List (Event T D)) :
    ungroup (events.filterMap staged) = events.flatMap records := by
  induction events with
  | nil => rfl
  | cons event events ih =>
    cases event with
    | progress changes =>
      rw [List.filterMap_cons_none rfl, ih]
      rfl
    | messages time data =>
      have hstaged : staged (messages time data) = some (time, data) := rfl
      rw [List.filterMap_cons_some hstaged, ungroup_cons, ih]
      rfl

end Event

/-- Compare an entry with the current one: the records of an entry with the same time are moved
    there, and an entry with another time becomes the current one.  `none` is an index out of bounds. -/
def merge_entry (state : List (T × List D) × ℕ) (i : ℕ) : Option (List (T × List D) × ℕ) :=
  match state.1[state.2]?, state.1[i]? with
  | some current, some entry =>
    if current.1 = entry.1 then
      some ((state.1.set i (entry.1, [])).set state.2 (current.1, current.2 ++ entry.2), state.2)
    else some (state.1, i)
  | _, _ => none

/-- Converts the events of a captured stream into a sequence of timestamped data. -/
def extract (events : List (Event T D)) : Option (List (T × List D)) :=
  let result := stable_sort Prod.fst (events.filterMap Event.staged)
  ((List.range' 1 (result.length - 1)).foldlM merge_entry (result, 0)).map fun merged =>
    (merged.1.map fun entry => (entry.1, stable_sort id entry.2)).filter fun entry =>
      !entry.2.isEmpty

/-! ### Merging in place -/

/-- Entries that still hold records. -/
def filled (entries : List (T × List D)) : List (T × List D) :=
  entries.filter fun entry => !entry.2.isEmpty

theorem filled_append (entries more : List (T × List D)) :
    filled (entries ++ more) = filled entries ++ filled more :=
  List.filter_append _ _

theorem filled_cons (entry : T × List D) (entries : List (T × List D)) :
    filled (entry :: entries) = filled [entry] ++ filled entries :=
  filled_append [entry] entries

theorem filled_of_empty {entries : List (T × List D)} (h : ∀ entry ∈ entries, entry.2 = []) :
    filled entries = [] := by
  refine List.filter_eq_nil_iff.mpr fun entry hentry => ?_
  rw [h entry hentry, List.isEmpty_nil]
  exact Bool.false_ne_true

/-- Moving the records of one entry to an earlier one. -/
theorem set_moved (finished : List (T × List D)) (current entry current' entry' : T × List D)
    (moved rest : List (T × List D)) :
    ((finished ++ current :: (moved ++ entry :: rest)).set (finished.length + 1 + moved.length) entry').set
        finished.length current' =
      finished ++ current' :: (moved ++ entry' :: rest) := by
  have hindex : finished.length + 1 + moved.length - finished.length = moved.length + 1 := by omega
  rw [List.set_append_right _ _ (by omega), hindex, List.set_cons_succ,
    List.set_append_right _ _ le_rfl, Nat.sub_self, List.set_cons_zero,
    List.set_append_right _ _ le_rfl, Nat.sub_self, List.set_cons_zero]

/-- The loop has come to the entries of `rest`; before them lie the current entry and others whose
    records have been moved to it. -/
theorem merge_entries_eq (finished : List (T × List D)) (time : T) (data : List D)
    (moved rest : List (T × List D)) (hmoved : ∀ entry ∈ moved, entry.2 = []) :
    ∃ merged current, (List.range' (finished.length + 1 + moved.length) rest.length).foldlM merge_entry
        (finished ++ (time, data) :: (moved ++ rest), finished.length) = some (merged, current) ∧
      filled merged = filled finished ++ filled (merge_runs time data rest) := by
  induction rest generalizing finished time data moved with
  | nil =>
    refine ⟨finished ++ (time, data) :: (moved ++ []), finished.length, rfl, ?_⟩
    rw [List.append_nil, filled_append, filled_cons _ moved, filled_of_empty hmoved, List.append_nil]
    rfl
  | cons entry rest ih =>
    obtain ⟨other, more⟩ := entry
    have hcurrent : (finished ++ (time, data) :: (moved ++ (other, more) :: rest))[finished.length]? =
        some (time, data) := by
      rw [List.getElem?_append_right le_rfl, Nat.sub_self]
      rfl
    have hentry : (finished ++ (time, data) :: (moved ++ (other, more) :: rest))[
        finished.length + 1 + moved.length]? = some (other, more) := by
      have hindex : finished.length + 1 + moved.length - finished.length = moved.length + 1 := by omega
      rw [List.getElem?_append_right (by omega), hindex, List.getElem?_cons_succ,
        List.getElem?_append_right le_rfl, Nat.sub_self]
      rfl
    rw [List.length_cons, List.range'_succ, List.foldlM_cons]
    by_cases htime : time = other
    · -- the records move to the current entry
      subst htime
      have hstep : merge_entry (finished ++ (time, data) :: (moved ++ (time, more) :: rest), finished.length)
          (finished.length + 1 + moved.length) =
          some (finished ++ (time, data ++ more) :: ((moved ++ [(time, [])]) ++ rest), finished.length) := by
        unfold merge_entry
        simp only [hcurrent, hentry]
        rw [if_pos trivial, set_moved, List.append_assoc, List.singleton_append]
      obtain ⟨merged, current, hloop, hfilled⟩ := ih finished time (data ++ more) (moved ++ [(time, [])]) (by
        intro entry hmem
        rcases List.mem_append.mp hmem with hmem | hmem
        · exact hmoved entry hmem
        · rw [List.mem_singleton.mp hmem])
      refine ⟨merged, current, ?_, ?_⟩
      · rw [hstep]
        rw [List.length_append, List.length_singleton, ← add_assoc] at hloop
        exact hloop
      · unfold merge_runs
        rw [if_pos rfl]
        exact hfilled
    · -- the entry becomes the current one
      have hstep : merge_entry (finished ++ (time, data) :: (moved ++ (other, more) :: rest), finished.length)
          (finished.length + 1 + moved.length) =
          some ((finished ++ (time, data) :: moved) ++ (other, more) :: ([] ++ rest),
            (finished ++ (time, data) :: moved).length) := by
        unfold merge_entry
        simp only [hcurrent, hentry]
        rw [if_neg htime, List.append_assoc, List.cons_append, List.length_append, List.length_cons,
          List.nil_append, add_assoc, add_comm 1]
      obtain ⟨merged, current, hloop, hfilled⟩ := ih (finished ++ (time, data) :: moved) other more [] (by
        intro entry hmem
        cases hmem)
      refine ⟨merged, current, ?_, ?_⟩
      · rw [hstep]
        rw [List.length_append, List.length_cons, List.length_nil, add_zero, add_comm moved.length,
          ← add_assoc] at hloop
        rw [List.length_append, List.length_cons, add_comm moved.length, ← add_assoc]
        exact hloop
      · unfold merge_runs
        rw [if_neg htime, hfilled, filled_append, filled_cons _ moved, filled_of_empty hmoved,
          List.append_nil, filled_cons _ (merge_runs other more rest), List.append_assoc]

/-! ### The result -/

/-- Merging the staged messages in place makes groups of one time each, in the order of time, of the same
    records. -/
theorem merge_entries_spec (entries : List (T × List D))
    (hsorted : entries.Pairwise fun entry entry' => entry.1 ≤ entry'.1) :
    ∃ merged current, (List.range' 1 (entries.length - 1)).foldlM merge_entry (entries, 0) =
        some (merged, current) ∧
      (filled merged).Pairwise (fun entry entry' => entry.1 < entry'.1) ∧
      ungroup (filled merged) = ungroup entries := by
  cases entries with
  | nil => exact ⟨[], 0, rfl, List.Pairwise.nil, rfl⟩
  | cons entry rest =>
    obtain ⟨time, data⟩ := entry
    obtain ⟨merged, current, hloop, hfilled⟩ := merge_entries_eq [] time data [] rest (by
      intro entry hmem
      cases hmem)
    obtain ⟨hleast, htail⟩ := List.pairwise_cons.mp hsorted
    refine ⟨merged, current, hloop, ?_, ?_⟩
    · rw [hfilled]
      exact (strictly_sorted_merge_runs hleast htail).1.filter _
    · rw [hfilled]
      exact (ungroup_filter _).trans (ungroup_merge_runs time data rest)

/-- The result is the canonical form of the records in the messages. -/
theorem extract_spec (events : List (Event T D)) :
    ∃ result, extract events = some result ∧ Canonical result ∧
      (ungroup result).Perm (events.flatMap Event.records) := by
  have hstable := stable_sort_stably_sorted Prod.fst (events.filterMap Event.staged)
  obtain ⟨merged, current, hloop, hstrict, hrecords⟩ := merge_entries_spec _ hstable.ordered
  -- sorting the records of an entry does not empty it
  have hisEmpty : ∀ data : List D, (stable_sort id data).isEmpty = data.isEmpty :=
    fun data => (stable_sort_perm id data).isEmpty_eq
  have hresult : extract events =
      some ((filled merged).map fun entry => (entry.1, stable_sort id entry.2)) := by
    simp only [extract, hloop, Option.map_some, filled, List.filter_map, Function.comp_def, hisEmpty]
  refine ⟨_, hresult, ⟨?_, ?_, ?_⟩, ?_⟩
  · exact List.pairwise_map.mpr hstrict
  · intro group hgroup
    obtain ⟨entry, hentry, rfl⟩ := List.mem_map.mp hgroup
    have hfull := (List.mem_filter.mp hentry).2
    intro hempty
    have hsorted : stable_sort id entry.2 = [] := hempty
    rw [← hisEmpty, hsorted, List.isEmpty_nil] at hfull
    exact Bool.false_ne_true hfull
  · intro group hgroup
    obtain ⟨entry, -, rfl⟩ := List.mem_map.mp hgroup
    exact (stable_sort_stably_sorted id entry.2).ordered
  · have hsort := ungroup_map_perm (stable_sort_perm (id : D → D)) (filled merged)
    rw [hrecords] at hsort
    rw [← Event.ungroup_staged]
    exact hsort.trans (ungroup_perm (stable_sort_perm Prod.fst (events.filterMap Event.staged)))

/-- Extracting collects the whole stream: the times are strictly increasing, the records of each are
    sorted, some, and all that its messages hold, a time is there exactly when a record
    carries it, and events of the same records are extracted to the same list. -/
theorem extract_canonical (events : List (Event T D)) :
    ∃ result, extract events = some result ∧
      result.Pairwise (fun entry entry' => entry.1 < entry'.1) ∧
      (∀ time data, (time, data) ∈ result → data.Pairwise (fun item item' => item ≤ item') ∧ data ≠ [] ∧
        data.Perm (recordsAt time (events.flatMap Event.records))) ∧
      (∀ time, (∃ data, (time, data) ∈ result) ↔
        ∃ item, (time, item) ∈ events.flatMap Event.records) ∧
      ∀ others : List (Event T D), (events.flatMap Event.records).Perm (others.flatMap Event.records) →
        extract others = some result := by
  obtain ⟨result, hresult, hcanonical, hrecords⟩ := extract_spec events
  refine ⟨result, hresult, hcanonical.keys, ?_, ?_, ?_⟩
  · intro time data hentry
    have hitems : recordsAt time (ungroup result) = data := hcanonical.recordsAt_eq hentry
    refine ⟨hcanonical.sorted _ hentry, hcanonical.nonempty _ hentry, ?_⟩
    rw [← hitems]
    exact (hrecords.filter _).map _
  · intro time
    rw [hcanonical.mem_keys_iff]
    exact exists_congr fun item => hrecords.mem_iff
  · intro others hsame
    obtain ⟨other, hother, hcanonical', hrecords'⟩ := extract_spec others
    rw [hother, hcanonical.unique hcanonical' (hrecords.trans (hsame.trans hrecords'.symm))]

/-- Messages of one time with another one between them, an empty message, and a record given twice. -/
example : extract [.messages 3 [2, 1], .progress [(3, -1)], .messages 1 [5], .messages 2 ([] : List ℕ),
    .messages 3 [1]] = some [(1, [5]), (3, [1, 1, 2])] := by decide

end Timely
