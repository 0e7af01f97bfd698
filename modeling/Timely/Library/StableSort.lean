/-
  Timely/Library/StableSort.lean
  ==============================
  **Sorting by a key, without changing the order of equals.**

  A list in the order of a key whose items of each key stand as they did before
  is the only one of its kind.  Distributing a list over the values of a digit
  and taking the parts in order is one such sort; done digit after digit, least
  significant first, it sorts by all of them, and so does sorting each part of a
  distribution by the most significant one.
-/
import Timely.Library.Sorted
import Mathlib.Data.List.FinRange
import Mathlib.Data.List.Destutter

namespace Library

variable {α κ : Type*} [LinearOrder κ]

/-- `sorted` holds the items in the order of the key, and items of the same key in the order in
    which they were. -/
structure StablySorted (key : α → κ) (items sorted : List α) : Prop where
  ordered : sorted.Pairwise fun a b => key a ≤ key b
  same : ∀ k, sorted.filter (fun a => key a = k) = items.filter fun a => key a = k

/-- The items in the order of the key, and items of the same key in the order in which they are. -/
def stable_sort (key : α → κ) (items : List α) : List α :=
  items.insertionSort fun a b => key a ≤ key b

namespace StablySorted

variable {key : α → κ} {items first second : List α}

theorem mem_iff (h : StablySorted key items first) {a : α} : a ∈ first ↔ a ∈ items := by
  have hmem : a ∈ first.filter (fun b => key b = key a) ↔
      a ∈ items.filter (fun b => key b = key a) := by rw [h.same]
  simpa using hmem

/-- There is only one. -/
theorem unique (hfirst : StablySorted key items first) (hsecond : StablySorted key items second) :
    first = second := by
  induction first generalizing items second with
  | nil =>
    cases second with
    | nil => rfl
    | cons b second =>
      have hmem := hfirst.mem_iff.mpr (hsecond.mem_iff.mp (List.mem_cons_self (a := b)))
      cases hmem
  | cons a first ih =>
    cases second with
    | nil =>
      have hmem := hsecond.mem_iff.mpr (hfirst.mem_iff.mp (List.mem_cons_self (a := a)))
      cases hmem
    | cons b second =>
      obtain ⟨hleast, hordered⟩ := List.pairwise_cons.mp hfirst.ordered
      obtain ⟨hleast', hordered'⟩ := List.pairwise_cons.mp hsecond.ordered
      -- both heads have the least key, so they are the first items of that key
      have hle : key a ≤ key b := by
        rcases List.mem_cons.mp (hfirst.mem_iff.mpr (hsecond.mem_iff.mp List.mem_cons_self)) with
          heq | hmem
        · exact (congrArg key heq).ge
        · exact hleast b hmem
      have hge : key b ≤ key a := by
        rcases List.mem_cons.mp (hsecond.mem_iff.mpr (hfirst.mem_iff.mp List.mem_cons_self)) with
          heq | hmem
        · exact (congrArg key heq).ge
        · exact hleast' a hmem
      have hkey : key a = key b := le_antisymm hle hge
      have hsame := (hfirst.same (key a)).trans (hsecond.same (key a)).symm
      rw [List.filter_cons_of_pos (by simp), List.filter_cons_of_pos (by simp [hkey])] at hsame
      obtain ⟨rfl, -⟩ := List.cons.inj hsame
      -- what is left is stably sorted again
      have hrest : ∀ k, second.filter (fun c => key c = k) = first.filter fun c => key c = k := by
        intro k
        have hboth := (hsecond.same k).trans (hfirst.same k).symm
        by_cases hk : key a = k
        · rw [List.filter_cons_of_pos (by simp [hk]), List.filter_cons_of_pos (by simp [hk])] at hboth
          exact (List.cons.inj hboth).2
        · rwa [List.filter_cons_of_neg (by simp [hk]), List.filter_cons_of_neg (by simp [hk])] at hboth
      rw [ih ⟨hordered, fun _ => rfl⟩ ⟨hordered', hrest⟩]

end StablySorted

section Insertion

/-- Insertion does not change the order of items that are related to each other. -/
theorem filter_orderedInsert {r : α → α → Prop} [DecidableRel r] {p : α → Bool}
    (hrelated : ∀ a b, p a → p b → r a b) (a : α) (items : List α) :
    (items.orderedInsert r a).filter p = (a :: items).filter p := by
  induction items with
  | nil => rfl
  | cons b items ih =>
    rw [List.orderedInsert_cons]
    by_cases hle : r a b
    · rw [if_pos hle]
    · rw [if_neg hle]
      by_cases hb : p b
      · -- the item inserted is none of them
        have ha : ¬ p a := fun ha => hle (hrelated a b ha hb)
        rw [List.filter_cons_of_pos hb, ih, List.filter_cons_of_neg ha, List.filter_cons_of_neg ha,
          List.filter_cons_of_pos hb]
      · rw [List.filter_cons_of_neg hb, ih]
        simp [List.filter_cons, hb]

theorem filter_insertionSort {r : α → α → Prop} [DecidableRel r] {p : α → Bool}
    (hrelated : ∀ a b, p a → p b → r a b) (items : List α) :
    (items.insertionSort r).filter p = items.filter p := by
  induction items with
  | nil => rfl
  | cons a items ih =>
    rw [List.insertionSort_cons, filter_orderedInsert hrelated, List.filter_cons, List.filter_cons, ih]

variable (key : α → κ) {items : List α}

theorem stable_sort_stably_sorted (items : List α) :
    StablySorted key items (stable_sort key items) := by
  have : Std.Total fun a b : α => key a ≤ key b := ⟨fun a b => le_total (key a) (key b)⟩
  have : IsTrans α fun a b : α => key a ≤ key b := ⟨fun _ _ _ => le_trans⟩
  refine ⟨List.pairwise_insertionSort _ items, fun k => ?_⟩
  refine filter_insertionSort (fun a b ha hb => ?_) items
  exact ((of_decide_eq_true ha).trans (of_decide_eq_true hb).symm).le

end Insertion

variable {key : α → κ} {items sorted : List α}

theorem StablySorted.eq_stable_sort (h : StablySorted key items sorted) :
    sorted = stable_sort key items :=
  h.unique (stable_sort_stably_sorted key items)

theorem mem_stable_sort {a : α} : a ∈ stable_sort key items ↔ a ∈ items :=
  (stable_sort_stably_sorted key items).mem_iff

theorem length_stable_sort : (stable_sort key items).length = items.length :=
  List.length_insertionSort _ _

theorem stable_sort_perm (key : α → κ) (items : List α) : (stable_sort key items).Perm items :=
  List.perm_insertionSort _ items

/-! ### One item of each key -/

/-- The items without those that have the key of the item kept before them. -/
def dedup_by_key (key : α → κ) (items : List α) : List α :=
  items.destutter fun a b => key a ≠ key b

theorem mem_of_mem_dedup_by_key {a : α} (h : a ∈ dedup_by_key key items) : a ∈ items :=
  (List.destutter_sublist _ items).mem h

theorem map_dedup_by_key (h : items.Pairwise fun a b => key a ≤ key b) :
    (dedup_by_key key items).map key = (items.map key).dedup := by
  have hmap : (dedup_by_key key items).map key = (items.map key).destutter (· ≠ ·) :=
    List.map_destutter fun _ _ _ _ => Iff.rfl
  rw [hmap]
  exact List.Pairwise.destutter_eq_dedup (r := (· ≤ ·)) (List.pairwise_map.mpr h)

/-- What is left of sorted items has ascending keys. -/
theorem pairwise_dedup_by_key (h : items.Pairwise fun a b => key a ≤ key b) :
    ((dedup_by_key key items).map key).Pairwise fun a b => a < b := by
  refine List.pairwise_map.mpr (strictly_sorted_of_nodup ?_ ?_)
  · exact h.sublist (List.destutter_sublist _ items)
  · rw [map_dedup_by_key h]
    exact List.nodup_dedup _

/-- No key is lost. -/
theorem mem_map_dedup_by_key (h : items.Pairwise fun a b => key a ≤ key b) {k : κ} :
    k ∈ (dedup_by_key key items).map key ↔ k ∈ items.map key := by
  rw [map_dedup_by_key h, List.mem_dedup]

/-! ### Distribution over the values of a digit -/

section Distribution

variable {n : ℕ} {digit : α → Fin n}

/-- The items of digit 0, then those of digit 1, and so on. -/
def distribute (digit : α → Fin n) (items : List α) : List α :=
  (List.finRange n).flatMap fun d => items.filter fun a => digit a = d

/-- Where all items have one digit, their distribution is what they are. -/
theorem distribute_of_const {d : Fin n} (h : ∀ a ∈ items, digit a = d) :
    distribute digit items = items := by
  have hparts : ∀ d' : Fin n, items.filter (fun a => digit a = d') = if d' = d then items else [] := by
    intro d'
    by_cases hd : d' = d
    · rw [if_pos hd, List.filter_eq_self]
      intro a hmem
      simp [h a hmem, hd]
    · rw [if_neg hd, List.filter_eq_nil_iff]
      intro a hmem
      simp [h a hmem, Ne.symm hd]
  obtain ⟨before, after, hsplit⟩ := List.append_of_mem (List.mem_finRange d)
  have hnodup := List.nodup_finRange n
  rw [hsplit] at hnodup
  have hbefore : ∀ d' ∈ before, d' ≠ d := by
    rintro d' hmem rfl
    exact (List.nodup_append.mp hnodup).2.2 d' hmem d' List.mem_cons_self rfl
  have hafter : ∀ d' ∈ after, d' ≠ d := by
    rintro d' hmem rfl
    exact (List.nodup_cons.mp (List.nodup_append.mp hnodup).2.1).1 hmem
  rw [distribute, hsplit, List.flatMap_append, List.flatMap_cons, hparts d, if_pos rfl,
    List.flatMap_eq_nil_iff.mpr fun d' hmem => by rw [hparts, if_neg (hbefore d' hmem)],
    List.flatMap_eq_nil_iff.mpr fun d' hmem => by rw [hparts, if_neg (hafter d' hmem)],
    List.append_nil, List.nil_append]

/-- Distributing a list that is sorted by a lower digit sorts it by both. -/
theorem StablySorted.distribute {low : α → κ} {κ' : Type*} [LinearOrder κ'] {key' : α → κ'}
    (h : StablySorted low items sorted)
    (hhigh : ∀ a b, digit a < digit b → key' a ≤ key' b)
    (hlow : ∀ a b, digit a = digit b → low a ≤ low b → key' a ≤ key' b)
    (hkey : ∀ a b, key' a = key' b → digit a = digit b ∧ low a = low b) :
    StablySorted key' items (distribute digit sorted) := by
  refine ⟨List.pairwise_flatMap.mpr ⟨fun d _ => ?_, ?_⟩, fun k => ?_⟩
  · refine List.Pairwise.imp_of_mem ?_ (h.ordered.filter _)
    intro a b ha hb hle
    have hda : digit a = d := by simpa using (List.mem_filter.mp ha).2
    have hdb : digit b = d := by simpa using (List.mem_filter.mp hb).2
    exact hlow a b (hda.trans hdb.symm) hle
  · refine (List.pairwise_lt_finRange n).imp fun {d d'} hlt a ha b hb => ?_
    have hda : digit a = d := by simpa using (List.mem_filter.mp ha).2
    have hdb : digit b = d' := by simpa using (List.mem_filter.mp hb).2
    exact hhigh a b (by rwa [hda, hdb])
  · -- the items of one key have one digit and one lower digit
    have hparts : (Library.distribute digit sorted).filter (fun a => key' a = k)
        = Library.distribute digit (sorted.filter fun a => key' a = k) := by
      simp only [Library.distribute, List.filter_flatMap, List.filter_filter, Bool.and_comm]
    rw [hparts]
    by_cases hex : ∃ a ∈ sorted, key' a = k
    · obtain ⟨a, -, rfl⟩ := hex
      have hsame : ∀ list : List α, list.filter (fun b => key' b = key' a)
          = (list.filter fun b => low b = low a).filter fun b => key' b = key' a := by
        intro list
        rw [List.filter_filter]
        refine List.filter_congr fun b _ => ?_
        by_cases hb : key' b = key' a
        · simp [hb, (hkey b a hb).2]
        · simp [hb]
      rw [distribute_of_const (d := digit a), hsame, h.same, ← hsame]
      intro b hmem
      exact (hkey b a (by simpa using (List.mem_filter.mp hmem).2)).1
    · have hnone : ∀ list : List α, (∀ a ∈ list, a ∈ sorted) →
          list.filter (fun a => key' a = k) = [] := by
        intro list hlist
        rw [List.filter_eq_nil_iff]
        intro a hmem
        simpa using fun ha => hex ⟨a, hlist a hmem, ha⟩
      rw [hnone sorted fun _ => id, hnone items fun a => h.mem_iff.mpr]
      simp [Library.distribute]

/-- Distributing by the most significant digit and sorting each part sorts the whole. -/
theorem stable_sort_eq_flatMap
    (hdigit : ∀ a ∈ items, ∀ b ∈ items, digit a < digit b → key a < key b) :
    stable_sort key items
      = (List.finRange n).flatMap fun d => stable_sort key (items.filter fun a => digit a = d) := by
  refine Eq.symm (StablySorted.eq_stable_sort ⟨List.pairwise_flatMap.mpr ⟨fun d _ => ?_, ?_⟩, fun k => ?_⟩)
  · exact (stable_sort_stably_sorted key _).ordered
  · refine (List.pairwise_lt_finRange n).imp fun {d d'} hlt a ha b hb => ?_
    obtain ⟨hma, hda⟩ := List.mem_filter.mp (mem_stable_sort.mp ha)
    obtain ⟨hmb, hdb⟩ := List.mem_filter.mp (mem_stable_sort.mp hb)
    have hda : digit a = d := by simpa using hda
    have hdb : digit b = d' := by simpa using hdb
    exact (hdigit a hma b hmb (by rwa [hda, hdb])).le
  · have hparts : ∀ d : Fin n,
        (stable_sort key (items.filter fun a => digit a = d)).filter (fun a => key a = k)
          = (items.filter fun a => key a = k).filter fun a => digit a = d := by
      intro d
      rw [(stable_sort_stably_sorted key _).same, List.filter_filter, List.filter_filter]
      exact List.filter_congr fun a _ => Bool.and_comm _ _
    rw [List.filter_flatMap]
    simp only [hparts]
    by_cases hex : ∃ a ∈ items, key a = k
    · obtain ⟨a, hmem, rfl⟩ := hex
      refine distribute_of_const (d := digit a) fun b hb => ?_
      obtain ⟨hmb, hkb⟩ := List.mem_filter.mp hb
      have hkb : key b = key a := by simpa using hkb
      rcases lt_trichotomy (digit b) (digit a) with hlt | heq | hgt
      · exact absurd (hdigit b hmb a hmem hlt) (by simp [hkb])
      · exact heq
      · exact absurd (hdigit a hmem b hmb hgt) (by simp [hkb])
    · have hnone : items.filter (fun a => key a = k) = [] := by
        rw [List.filter_eq_nil_iff]
        intro a hmem
        simpa using fun ha => hex ⟨a, hmem, ha⟩
      rw [hnone]
      simp

end Distribution

end Library
