/-
  Timely/Library/Grouped.lean
  ===========================
  **Records in groups of one key.**

  A list of groups stands for the records in them.  Adjacent groups of the same
  key can be merged; when the keys are in order no key is left twice.  Groups in
  strict order of their keys, none of them empty and each one sorted, are a
  canonical form: they are determined by the records as a multiset.
-/
import Timely.Library.Keyed
import Timely.Library.Sorted
import Mathlib.Data.List.Perm.Lattice

namespace Library

variable {K D : Type*}

/-- The records in some groups. -/
def ungroup (groups : List (K × List D)) : List (K × D) :=
  groups.flatMap fun group => group.2.map fun item => (group.1, item)

@[simp] theorem ungroup_cons (group : K × List D) (groups : List (K × List D)) :
    ungroup (group :: groups) = (group.2.map fun item => (group.1, item)) ++ ungroup groups := rfl

theorem mem_ungroup {groups : List (K × List D)} {key : K} {item : D} :
    (key, item) ∈ ungroup groups ↔ ∃ items, (key, items) ∈ groups ∧ item ∈ items := by
  unfold ungroup
  rw [List.mem_flatMap]
  constructor
  · rintro ⟨⟨other, items⟩, hgroup, hitem⟩
    obtain ⟨_, hmem, heq⟩ := List.mem_map.mp hitem
    obtain ⟨rfl, rfl⟩ := Prod.mk.inj heq
    exact ⟨items, hgroup, hmem⟩
  · rintro ⟨items, hgroup, hitem⟩
    exact ⟨(key, items), hgroup, List.mem_map_of_mem hitem⟩

theorem ungroup_perm {groups groups' : List (K × List D)} (h : groups.Perm groups') :
    (ungroup groups).Perm (ungroup groups') :=
  h.flatMap_right _

/-- Empty groups hold no records. -/
theorem ungroup_filter (groups : List (K × List D)) :
    ungroup (groups.filter fun group => !group.2.isEmpty) = ungroup groups := by
  induction groups with
  | nil => rfl
  | cons group groups ih =>
    obtain ⟨key, items⟩ := group
    cases items with
    | nil =>
      rw [List.filter_cons_of_neg (by simp), ih]
      rfl
    | cons item items => rw [List.filter_cons_of_pos (by simp), ungroup_cons, ungroup_cons, ih]

/-- Reordering the items in each group. -/
theorem ungroup_map_perm {order : List D → List D} (horder : ∀ items, (order items).Perm items)
    (groups : List (K × List D)) :
    (ungroup (groups.map fun group => (group.1, order group.2))).Perm (ungroup groups) := by
  induction groups with
  | nil => exact List.Perm.refl _
  | cons group groups ih =>
    rw [List.map_cons, ungroup_cons, ungroup_cons]
    exact ((horder group.2).map _).append ih

/-! ### Merging groups of one key -/

section Merge

variable [DecidableEq K]

/-- Merge groups that follow with the same key into one group. -/
def merge_runs (key : K) (items : List D) : List (K × List D) → List (K × List D)
  | [] => [(key, items)]
  | (other, more) :: rest =>
    if key = other then merge_runs key (items ++ more) rest
    else (key, items) :: merge_runs other more rest

/-- Merging loses and repeats no records. -/
theorem ungroup_merge_runs (key : K) (items : List D) (rest : List (K × List D)) :
    ungroup (merge_runs key items rest) = (items.map fun item => (key, item)) ++ ungroup rest := by
  induction rest generalizing key items with
  | nil => rfl
  | cons group rest ih =>
    obtain ⟨other, more⟩ := group
    unfold merge_runs
    by_cases hkey : key = other
    · subst hkey
      rw [if_pos rfl, ih, List.map_append, ungroup_cons, List.append_assoc]
    · rw [if_neg hkey, ungroup_cons, ih, ungroup_cons]

end Merge

section Order

variable [LinearOrder K]

/-- Groups in the order of their keys are merged to groups in strict order. -/
theorem strictly_sorted_merge_runs {key : K} {items : List D} {rest : List (K × List D)}
    (hleast : ∀ group ∈ rest, key ≤ group.1)
    (hsorted : rest.Pairwise fun group group' => group.1 ≤ group'.1) :
    (merge_runs key items rest).Pairwise (fun group group' => group.1 < group'.1) ∧
      ∀ group ∈ merge_runs key items rest, key ≤ group.1 := by
  induction rest generalizing key items with
  | nil =>
    refine ⟨List.pairwise_singleton _ _, fun group hgroup => ?_⟩
    rw [List.mem_singleton.mp hgroup]
  | cons group rest ih =>
    obtain ⟨other, more⟩ := group
    obtain ⟨hhead, htail⟩ := List.pairwise_cons.mp hsorted
    have hle : key ≤ other := hleast _ List.mem_cons_self
    unfold merge_runs
    by_cases hkey : key = other
    · rw [if_pos hkey]
      exact ih (fun group hgroup => hleast group (List.mem_cons_of_mem _ hgroup)) htail
    · rw [if_neg hkey]
      obtain ⟨hstrict, hbound⟩ := @ih other more hhead htail
      have hlt : key < other := lt_of_le_of_ne hle hkey
      refine ⟨List.pairwise_cons.mpr ⟨fun group hgroup => hlt.trans_le (hbound group hgroup), hstrict⟩, ?_⟩
      intro group hgroup
      rcases List.mem_cons.mp hgroup with rfl | hgroup
      · exact le_rfl
      · exact hle.trans (hbound group hgroup)

/-! ### The canonical form -/

variable [LinearOrder D]

/-- Groups in strict order of their keys, none empty, and each one sorted. -/
structure Canonical (groups : List (K × List D)) : Prop where
  keys : groups.Pairwise fun group group' => group.1 < group'.1
  nonempty : ∀ group ∈ groups, group.2 ≠ []
  sorted : ∀ group ∈ groups, group.2.Pairwise fun item item' => item ≤ item'

namespace Canonical

variable {groups groups' : List (K × List D)}

theorem of_cons {group : K × List D} (h : Canonical (group :: groups)) : Canonical groups :=
  ⟨(List.pairwise_cons.mp h.keys).2, fun other hother => h.nonempty other (List.mem_cons_of_mem _ hother),
    fun other hother => h.sorted other (List.mem_cons_of_mem _ hother)⟩

/-- The items of a group are the records of its key. -/
theorem recordsAt_eq (h : Canonical groups) {group : K × List D} (hgroup : group ∈ groups) :
    recordsAt group.1 (ungroup groups) = group.2 := by
  induction groups with
  | nil => cases hgroup
  | cons first groups ih =>
    rw [ungroup_cons, recordsAt_append]
    obtain ⟨hfirst, -⟩ := List.pairwise_cons.mp h.keys
    rcases List.mem_cons.mp hgroup with rfl | hgroup
    · -- no later group has the key
      have hnone : recordsAt group.1 (ungroup groups) = [] := by
        rw [recordsAt_eq_nil]
        intro item hitem
        obtain ⟨items, hmem, -⟩ := mem_ungroup.mp hitem
        exact lt_irrefl group.1 (hfirst (group.1, items) hmem)
      rw [recordsAt_map_same, hnone, List.append_nil]
    · rw [recordsAt_map_other (hfirst group hgroup).ne, List.nil_append]
      exact ih h.of_cons hgroup

/-- A key has a group exactly when it has records. -/
theorem mem_keys_iff (h : Canonical groups) {key : K} :
    (∃ items, (key, items) ∈ groups) ↔ ∃ item, (key, item) ∈ ungroup groups := by
  constructor
  · rintro ⟨items, hgroup⟩
    obtain ⟨item, hitem⟩ := List.exists_mem_of_ne_nil items (h.nonempty _ hgroup)
    exact ⟨item, mem_ungroup.mpr ⟨items, hgroup, hitem⟩⟩
  · rintro ⟨item, hitem⟩
    obtain ⟨items, hgroup, -⟩ := mem_ungroup.mp hitem
    exact ⟨items, hgroup⟩

theorem mem_of_perm (h : Canonical groups) (h' : Canonical groups')
    (hperm : (ungroup groups).Perm (ungroup groups')) {group : K × List D} (hgroup : group ∈ groups) :
    group ∈ groups' := by
  obtain ⟨item, hitem⟩ := h.mem_keys_iff.mp ⟨group.2, hgroup⟩
  obtain ⟨items, hgroup'⟩ := h'.mem_keys_iff.mpr ⟨item, hperm.mem_iff.mp hitem⟩
  -- both groups hold the records of the key, in order
  have hrecords : group.2.Perm items := by
    have hitems : recordsAt group.1 (ungroup groups') = items := h'.recordsAt_eq hgroup'
    rw [← h.recordsAt_eq hgroup, ← hitems]
    exact (hperm.filter _).map _
  have hsame : group.2 = items :=
    hrecords.eq_of_pairwise (fun _ _ _ _ => le_antisymm) (h.sorted _ hgroup) (h'.sorted _ hgroup')
  rw [← hsame] at hgroup'
  exact hgroup'

/-- The records determine the canonical form. -/
theorem unique (h : Canonical groups) (h' : Canonical groups')
    (hperm : (ungroup groups).Perm (ungroup groups')) : groups = groups' := by
  have hnodup : ∀ {others : List (K × List D)}, Canonical others → others.Nodup := by
    intro others hothers
    refine List.Pairwise.imp ?_ hothers.keys
    rintro group _ hlt rfl
    exact lt_irrefl group.1 hlt
  refine eq_of_strictly_sorted ?_ h.keys h'.keys
  rw [List.perm_ext_iff_of_nodup (hnodup h) (hnodup h')]
  exact fun group => ⟨h.mem_of_perm h' hperm, h'.mem_of_perm h hperm.symm⟩

end Canonical

end Order

end Library
