/-
  Timely/Worklist.lean
  ====================
  **The propagation worklist** (`timely/src/progress/reachability.rs`, the field
  `worklist` of `Tracker`).

  The source keeps a `BinaryHeap<Reverse<(T, Location, i64)>>`.  Entries that
  compare equal are equal, so a heap exposes no more than the sorted list of its
  entries; the list is the model, with its order as a field.  `next` is the head
  of the propagation loop: it pops a least entry, then pops and adds up every
  further entry of the same time and location.
-/
import Timely.Library.Tally
import Timely.Order
import Mathlib.Data.List.Sort

set_option linter.unusedSectionVars false

namespace Timely

open Library

variable {K : Type} [Ord K] [DecidableEq K]

/-- Keyed updates to perform, least entry first. -/
structure Worklist (K : Type) [Ord K] where
  entries : List (K × ℤ)
  sorted : entries.Pairwise sortsBefore

namespace Worklist

/-- An empty worklist. -/
def new : Worklist K := ⟨[], List.Pairwise.nil⟩

section Operations

variable [Std.TransOrd K]

instance : Std.Total (sortsBefore (K := K)) := ⟨sortsBefore_total⟩

instance : IsTrans K sortsBefore := ⟨fun _ _ _ => sortsBefore_trans⟩

def push (worklist : Worklist K) (entry : K × ℤ) : Worklist K where
  entries := worklist.entries.orderedInsert sortsBefore entry
  sorted := worklist.sorted.orderedInsert entry _

theorem perm_push (worklist : Worklist K) (entry : K × ℤ) :
    (worklist.push entry).entries.Perm (entry :: worklist.entries) :=
  List.perm_orderedInsert _ _ _

theorem perm_foldl_push (worklist : Worklist K) (entries : List (K × ℤ)) :
    (entries.foldl push worklist).entries.Perm (entries ++ worklist.entries) := by
  induction entries generalizing worklist with
  | nil => exact List.Perm.refl _
  | cons entry entries ih =>
    refine (ih (worklist.push entry)).trans ?_
    exact ((worklist.perm_push entry).append_left entries).trans List.perm_middle

end Operations

/-- Add up and remove the leading entries of one key. -/
def accumulate (key : K) : ℤ → List (K × ℤ) → ℤ × List (K × ℤ)
  | diff, [] => (diff, [])
  | diff, entry :: rest =>
    if entry.1 = key then accumulate key (diff + entry.2) rest else (diff, entry :: rest)

theorem accumulate_spec (key : K) (diff : ℤ) (entries : List (K × ℤ)) :
    ∃ merged, entries = merged ++ (accumulate key diff entries).2 ∧
      (∀ entry ∈ merged, entry.1 = key) ∧
      (accumulate key diff entries).1 = diff + (merged.map Prod.snd).sum ∧
      ∀ entry ∈ (accumulate key diff entries).2.head?, entry.1 ≠ key := by
  induction entries generalizing diff with
  | nil => exact ⟨[], rfl, by simp, by simp [accumulate], by simp [accumulate]⟩
  | cons entry entries ih =>
    unfold accumulate
    by_cases h : entry.1 = key
    · rw [if_pos h]
      obtain ⟨merged, hsplit, hkeys, hsum, hhead⟩ := ih (diff + entry.2)
      refine ⟨entry :: merged, by rw [List.cons_append, ← hsplit], ?_, ?_, hhead⟩
      · intro other hother
        rcases List.mem_cons.mp hother with rfl | hmem
        · exact h
        · exact hkeys other hmem
      · rw [hsum, List.map_cons, List.sum_cons]
        ring
    · rw [if_neg h]
      refine ⟨[], rfl, by simp, by simp, ?_⟩
      intro other hother
      rw [List.head?_cons, Option.mem_some_iff] at hother
      rw [← hother]
      exact h

theorem sublist_accumulate (key : K) (diff : ℤ) (entries : List (K × ℤ)) :
    (accumulate key diff entries).2.Sublist entries := by
  obtain ⟨merged, hsplit, -⟩ := accumulate_spec key diff entries
  conv_rhs => rw [hsplit]
  exact List.sublist_append_right _ _

/-- Pop a least entry, with every further entry of the same key added to it. -/
def next (worklist : Worklist K) : Option ((K × ℤ) × Worklist K) :=
  match h : worklist.entries with
  | [] => none
  | entry :: rest =>
    some ((entry.1, (accumulate entry.1 entry.2 rest).1),
      ⟨(accumulate entry.1 entry.2 rest).2,
        (List.pairwise_cons.mp (h ▸ worklist.sorted)).2.sublist
          (sublist_accumulate entry.1 entry.2 rest)⟩)

theorem next_eq_none {worklist : Worklist K} : worklist.next = none ↔ worklist.entries = [] := by
  unfold next
  split
  case h_1 h => simp [h]
  case h_2 h => simp [h]

/-- What `next` takes out of the worklist. -/
structure Popped (worklist : Worklist K) (entry : K × ℤ) (rest : Worklist K) : Prop where
  split : ∃ merged, merged ≠ [] ∧ worklist.entries = merged ++ rest.entries ∧
    ∀ other ∈ merged, other.1 = entry.1
  total : tally worklist.entries entry.1 = entry.2
  gone : ∀ other ∈ rest.entries, other.1 ≠ entry.1

/-- The entries left have other keys, because equal keys are adjacent in sorted order. -/
theorem popped_of_next [Std.TransOrd K] [Std.LawfulEqOrd K] {worklist rest : Worklist K}
    {entry : K × ℤ} (h : worklist.next = some (entry, rest)) : Popped worklist entry rest := by
  unfold next at h
  split at h
  case h_1 => cases h
  case h_2 head tail hentries =>
    simp only [Option.some.injEq, Prod.mk.injEq] at h
    obtain ⟨rfl, rfl⟩ := h
    obtain ⟨merged, hsplit, hkeys, hsum, hhead⟩ := accumulate_spec head.1 head.2 tail
    have hsorted := worklist.sorted
    rw [hentries, List.pairwise_cons] at hsorted
    have hgone : ∀ other ∈ (accumulate head.1 head.2 tail).2, other.1 ≠ head.1 := by
      intro other hother heq
      cases hrest : (accumulate head.1 head.2 tail).2 with
      | nil => rw [hrest] at hother; cases hother
      | cons first others =>
        -- the first remaining entry sorts between two entries of the popped key
        have hfirst : first.1 ≠ head.1 := hhead first (by rw [hrest]; rfl)
        have hmem : first ∈ tail := by rw [hsplit, hrest]; simp
        have hbefore : sortsBefore head first := hsorted.1 first hmem
        rw [hrest] at hother
        rcases List.mem_cons.mp hother with rfl | hlater
        · exact hfirst heq
        · have hafter : sortsBefore first other := by
            have htail := hsorted.2
            rw [hsplit, hrest] at htail
            exact (List.pairwise_cons.mp (List.pairwise_append.mp htail).2.1).1 other hlater
          have hkeyAfter := sortsBefore_fst hafter
          rw [heq] at hkeyAfter
          exact hfirst (sortsBefore_antisymm hkeyAfter (sortsBefore_fst hbefore))
    have happend : worklist.entries = (head :: merged) ++ (accumulate head.1 head.2 tail).2 := by
      rw [List.cons_append, ← hsplit]
      exact hentries
    refine ⟨⟨head :: merged, by simp, happend, ?_⟩, ?_, hgone⟩
    · intro other hother
      rcases List.mem_cons.mp hother with rfl | hmem
      · rfl
      · exact hkeys other hmem
    · have hmerged := tally_of_same_key hkeys
      have hrest : tally (accumulate head.1 head.2 tail).2 head.1 = 0 :=
        tally_eq_zero_of_not_mem hgone
      rw [happend, tally_append, tally_cons, if_pos rfl, hmerged, hrest, hsum, add_zero]

/-- Popping leaves the sums of all other keys as they are. -/
theorem Popped.tally_rest {worklist rest : Worklist K} {entry : K × ℤ}
    (h : Popped worklist entry rest) (key : K) :
    tally rest.entries key = tally worklist.entries key - if entry.1 = key then entry.2 else 0 := by
  by_cases heq : entry.1 = key
  · subst heq
    rw [if_pos rfl, h.total, sub_self, tally_eq_zero_of_not_mem h.gone]
  · obtain ⟨merged, -, hsplit, hkeys⟩ := h.split
    rw [if_neg heq, hsplit, tally_append, sub_zero,
      tally_eq_zero_of_not_mem fun other hother hkey => heq ((hkeys other hother).symm.trans hkey),
      zero_add]

end Worklist

end Timely
