/-
  Timely/Library/BinarySearch.lean
  ================================
  **Binary search by a key.**

  The search halves the range in which the target may be until it meets the
  target or the range is empty.  In a list whose keys strictly ascend, the
  position it ends at splits the items: those before have lesser keys, the others
  have not.  This is so whether the target was met or not.
-/
import Mathlib.Data.List.Sort

namespace Library

variable {α κ : Type*} [LinearOrder κ]

/-- Searches for the target among the items from `left` up to `right`. -/
def binary_search_between (key : α → κ) (target : κ) (items : List α) : ℕ → ℕ → ℕ → Except ℕ ℕ
  | 0, left, _ => .error left
  | fuel + 1, left, right =>
    if left < right then
      match items[left + (right - left) / 2]? with
      | none => .error left
      | some item =>
        if key item < target then
          binary_search_between key target items fuel (left + (right - left) / 2 + 1) right
        else if target < key item then
          binary_search_between key target items fuel left (left + (right - left) / 2)
        else .ok (left + (right - left) / 2)
    else .error left

/-- The index of an item with the target for its key, or one at which it could be inserted. -/
def binary_search_by_key (key : α → κ) (target : κ) (items : List α) : Except ℕ ℕ :=
  binary_search_between key target items items.length 0 items.length

/-- The items before `left` have lesser keys, those from `right` on have not. -/
def Narrowed (key : α → κ) (target : κ) (items : List α) (left right : ℕ) : Prop :=
  ∀ i item, items[i]? = some item →
    (i < left → key item < target) ∧ (right ≤ i → target ≤ key item)

/-- The index that a search ends with, however it ends. -/
def position : Except ℕ ℕ → ℕ
  | .ok index => index
  | .error index => index

variable {key : α → κ} {target : κ} {items : List α}

theorem key_lt_key (hsorted : items.Pairwise fun a b => key a < key b) {i j : ℕ} {a b : α}
    (ha : items[i]? = some a) (hb : items[j]? = some b) (hlt : i < j) : key a < key b := by
  obtain ⟨hi, rfl⟩ := List.getElem?_eq_some_iff.mp ha
  obtain ⟨hj, rfl⟩ := List.getElem?_eq_some_iff.mp hb
  exact List.pairwise_iff_getElem.mp hsorted i j hi hj hlt

theorem key_le_key (hsorted : items.Pairwise fun a b => key a < key b) {i j : ℕ} {a b : α}
    (ha : items[i]? = some a) (hb : items[j]? = some b) (hle : i ≤ j) : key a ≤ key b := by
  rcases Nat.lt_or_eq_of_le hle with hlt | rfl
  · exact (key_lt_key hsorted ha hb hlt).le
  · rw [ha] at hb
    cases hb
    exact le_rfl

/-- Looking at one item narrows the range from the left, from the right, or to nothing. -/
theorem Narrowed.look {left right middle : ℕ} {item : α} (h : Narrowed key target items left right)
    (hsorted : items.Pairwise fun a b => key a < key b) (hitem : items[middle]? = some item) :
    (key item < target → Narrowed key target items (middle + 1) right)
    ∧ (target < key item → Narrowed key target items left middle)
    ∧ (key item = target → Narrowed key target items middle middle) := by
  refine ⟨fun hlt i other hother => ⟨fun hi => ?_, (h i other hother).2⟩,
    fun hgt i other hother => ⟨(h i other hother).1, fun hi => ?_⟩,
    fun heq i other hother => ⟨fun hi => ?_, fun hi => ?_⟩⟩
  · exact (key_le_key hsorted hother hitem (Nat.le_of_lt_succ hi)).trans_lt hlt
  · exact hgt.le.trans (key_le_key hsorted hitem hother hi)
  · exact heq ▸ key_lt_key hsorted hother hitem hi
  · exact heq ▸ key_le_key hsorted hitem hother hi

theorem Narrowed.search {left right : ℕ} (h : Narrowed key target items left right)
    (hsorted : items.Pairwise fun a b => key a < key b) (hright : right ≤ items.length)
    (hle : left ≤ right) {fuel : ℕ} (hfuel : right - left ≤ fuel) :
    ∃ place ≤ right, position (binary_search_between key target items fuel left right) = place ∧
      Narrowed key target items place place := by
  induction fuel generalizing left right with
  | zero =>
    obtain rfl : left = right := by omega
    exact ⟨left, le_rfl, rfl, h⟩
  | succ fuel ih =>
    rw [binary_search_between]
    by_cases hlt : left < right
    · have hmiddle : left + (right - left) / 2 < right := by omega
      rw [if_pos hlt]
      generalize hindex : left + (right - left) / 2 = middle at hmiddle ⊢
      rw [List.getElem?_eq_getElem (hmiddle.trans_le hright)]
      obtain ⟨hless, hgreater, hequal⟩ :=
        h.look hsorted (List.getElem?_eq_getElem (hmiddle.trans_le hright))
      dsimp only
      split_ifs with hkey hkey'
      · exact ih (hless hkey) hright (by omega) (by omega)
      · obtain ⟨place, hplace, heq, hnarrowed⟩ := ih (hgreater hkey') (by omega) (by omega) (by omega)
        exact ⟨place, hplace.trans hmiddle.le, heq, hnarrowed⟩
      · exact ⟨middle, hmiddle.le, rfl, hequal (le_antisymm (not_lt.mp hkey') (not_lt.mp hkey))⟩
    · obtain rfl : left = right := by omega
      rw [if_neg hlt]
      exact ⟨left, le_rfl, rfl, h⟩

/-- A search splits items with ascending keys at the target. -/
theorem binary_search_by_key_splits (hsorted : items.Pairwise fun a b => key a < key b) (target : κ) :
    ∃ place ≤ items.length, position (binary_search_by_key key target items) = place ∧
      (∀ item ∈ items.take place, key item < target) ∧ ∀ item ∈ items.drop place, target ≤ key item := by
  have hstart : Narrowed key target items 0 items.length := by
    intro i item hitem
    refine ⟨fun hi => absurd hi (Nat.not_lt_zero i), fun hi => ?_⟩
    rw [List.getElem?_eq_none hi] at hitem
    cases hitem
  obtain ⟨place, hplace, heq, hnarrowed⟩ :=
    hstart.search hsorted le_rfl (Nat.zero_le _) (Nat.sub_le _ _)
  refine ⟨place, hplace, heq, fun item hitem => ?_, fun item hitem => ?_⟩
  · obtain ⟨i, hi, hget⟩ := List.mem_take_iff_getElem.mp hitem
    exact (hnarrowed i item (List.getElem?_eq_some_iff.mpr ⟨by omega, hget⟩)).1 (by omega)
  · obtain ⟨i, hi⟩ := List.mem_iff_getElem?.mp hitem
    rw [List.getElem?_drop] at hi
    exact (hnarrowed _ item hi).2 (Nat.le_add_right _ _)

example : binary_search_by_key (fun n => n) 5 [1, 4, 5, 9] = (.ok 2 : Except ℕ ℕ) := by rfl

end Library
