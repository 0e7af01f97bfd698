/-
  Timely/Library/SharedHeap.lean
  ==============================
  **A heap of values that counted handles share.**

  A cell is allocated with one handle; handles are cloned and dropped, and the
  cell counts them.  A cell's identity is its position and is never used again.
  When the counts are those of the handles that exist, a count of one means that
  the handle is the only one.
-/
import Mathlib.Data.List.Count
import Mathlib.Data.List.GetD
import Mathlib.Tactic.Common

namespace Library

/-- A value, with the number of handles that share it. -/
structure Cell (Value : Type*) where
  value : Value
  count : ℕ

/-- The cells allocated so far. -/
structure Heap (Value : Type*) where
  cells : List (Cell Value)

namespace Heap

variable {Value : Type*} (heap : Heap Value) (id other : ℕ)

/-- The identity that the next allocation gets. -/
def next : ℕ := heap.cells.length

/-- The number of handles to a cell; none to a cell that does not exist. -/
def count : ℕ := (heap.cells[id]?.map Cell.count).getD 0

/-- The value of a cell. -/
def value [Inhabited Value] : Value := (heap.cells[id]?.map Cell.value).getD default

/-- A new cell, with one handle. -/
def alloc (value : Value) : Heap Value := ⟨heap.cells ++ [⟨value, 1⟩]⟩

/-- One handle more. -/
def retain : Heap Value :=
  ⟨heap.cells.modify id fun cell => { cell with count := cell.count + 1 }⟩

/-- One handle less. -/
def release : Heap Value :=
  ⟨heap.cells.modify id fun cell => { cell with count := cell.count - 1 }⟩

/-- Changes the value of a cell. -/
def update (change : Value → Value) : Heap Value :=
  ⟨heap.cells.modify id fun cell => { cell with value := change cell.value }⟩

variable {heap id other}

theorem lt_next_of_count_pos (h : 0 < heap.count id) : id < heap.next := by
  by_contra hnot
  have hnone : heap.cells[id]? = none := List.getElem?_eq_none (by simpa [next] using hnot)
  simp [count, hnone] at h

theorem count_alloc {value : Value} :
    (heap.alloc value).count id = if id = heap.next then 1 else heap.count id := by
  by_cases hid : id = heap.next
  · subst hid
    simp [count, alloc, next]
  · rcases Nat.lt_or_gt_of_ne hid with hlt | hgt
    · have hget : (heap.cells ++ [⟨value, 1⟩])[id]? = heap.cells[id]? :=
        List.getElem?_append_left hlt
      simp [count, alloc, hid, hget]
    · have hlen : heap.cells.length < id := hgt
      have hnone : (heap.cells ++ [⟨value, 1⟩])[id]? = none :=
        List.getElem?_eq_none (by simp; omega)
      have hbefore : heap.cells[id]? = none := List.getElem?_eq_none (by omega)
      simp [count, alloc, hid, hnone, hbefore]

theorem count_retain (h : id < heap.next) :
    (heap.retain id).count other = if other = id then heap.count id + 1 else heap.count other := by
  have hget : heap.cells[id]? = some (heap.cells.get ⟨id, h⟩) := List.getElem?_eq_getElem h
  by_cases hid : other = id
  · subst hid
    simp [count, retain, List.getElem?_modify_eq, hget]
  · simp [count, retain, List.getElem?_modify_ne _ _ (Ne.symm hid), hid]

theorem count_release :
    (heap.release id).count other = if other = id then heap.count id - 1 else heap.count other := by
  by_cases hid : other = id
  · subst hid
    cases hget : heap.cells[other]? with
    | none => simp [count, release, List.getElem?_modify_eq, hget]
    | some cell => simp [count, release, List.getElem?_modify_eq, hget]
  · simp [count, release, List.getElem?_modify_ne _ _ (Ne.symm hid), hid]

@[simp] theorem count_update {change : Value → Value} :
    (heap.update id change).count other = heap.count other := by
  by_cases hid : id = other
  · subst hid
    cases hget : heap.cells[id]? with
    | none => simp [count, update, List.getElem?_modify_eq, hget]
    | some cell => simp [count, update, List.getElem?_modify_eq, hget]
  · simp [count, update, List.getElem?_modify_ne _ _ hid]

section Values

variable [Inhabited Value]

@[simp] theorem value_retain : (heap.retain id).value other = heap.value other := by
  by_cases hid : id = other
  · subst hid
    cases hget : heap.cells[id]? with
    | none => simp [value, retain, List.getElem?_modify_eq, hget]
    | some cell => simp [value, retain, List.getElem?_modify_eq, hget]
  · simp [value, retain, List.getElem?_modify_ne _ _ hid]

@[simp] theorem value_release : (heap.release id).value other = heap.value other := by
  by_cases hid : id = other
  · subst hid
    cases hget : heap.cells[id]? with
    | none => simp [value, release, List.getElem?_modify_eq, hget]
    | some cell => simp [value, release, List.getElem?_modify_eq, hget]
  · simp [value, release, List.getElem?_modify_ne _ _ hid]

@[simp] theorem value_alloc_next {value : Value} : (heap.alloc value).value heap.next = value := by
  simp [Heap.value, alloc, next]

theorem value_alloc (value : Value) (h : id < heap.next) :
    (heap.alloc value).value id = heap.value id := by
  have hget : (heap.cells ++ [⟨value, 1⟩])[id]? = heap.cells[id]? :=
    List.getElem?_append_left h
  simp [Heap.value, alloc, hget]

theorem value_update {change : Value → Value} (h : id < heap.next) :
    (heap.update id change).value id = change (heap.value id) := by
  have hget : heap.cells[id]? = some (heap.cells.get ⟨id, h⟩) := List.getElem?_eq_getElem h
  simp [value, update, List.getElem?_modify_eq, hget]

theorem value_update_ne {change : Value → Value} (h : id ≠ other) :
    (heap.update id change).value other = heap.value other := by
  simp [value, update, List.getElem?_modify_ne _ _ h]

end Values

/-! ### Counts and handles -/

/-- The counts are those of the handles that exist. -/
def Counted (heap : Heap Value) (handles : List ℕ) : Prop :=
  ∀ id, heap.count id = handles.count id

namespace Counted

variable {handles : List ℕ}

theorem pos (h : heap.Counted handles) (hid : id ∈ handles) : 0 < heap.count id := by
  rw [h id]
  exact List.count_pos_iff.mpr hid

theorem lt_next (h : heap.Counted handles) (hid : id ∈ handles) : id < heap.next :=
  lt_next_of_count_pos (h.pos hid)

theorem next_notMem (h : heap.Counted handles) : heap.next ∉ handles := by
  intro hmem
  have := h.lt_next hmem
  omega

theorem perm {handles' : List ℕ} (h : heap.Counted handles) (hperm : handles.Perm handles') :
    heap.Counted handles' := by
  intro id
  rw [h id, hperm.count_eq]

theorem alloc (h : heap.Counted handles) (value : Value) :
    (heap.alloc value).Counted (heap.next :: handles) := by
  intro id
  rw [count_alloc, List.count_cons]
  by_cases hid : id = heap.next
  · subst hid
    simp [List.count_eq_zero_of_not_mem h.next_notMem]
  · simp [hid, h id, Ne.symm hid]

theorem retain (h : heap.Counted (id :: handles)) :
    (heap.retain id).Counted (id :: id :: handles) := by
  intro other
  rw [count_retain (h.lt_next List.mem_cons_self), List.count_cons]
  by_cases hid : other = id
  · subst hid
    simp [h other]
  · simp [hid, h other, Ne.symm hid]

theorem release (h : heap.Counted (id :: handles)) : (heap.release id).Counted handles := by
  intro other
  rw [count_release]
  by_cases hid : other = id
  · subst hid
    simp [h other]
  · simp [hid, h other, Ne.symm hid]

theorem update (h : heap.Counted handles) (change : Value → Value) :
    (heap.update id change).Counted handles := by
  intro other
  rw [count_update]
  exact h other

/-- A count of one: there is no other handle. -/
theorem notMem_of_unique (h : heap.Counted (id :: handles)) (hone : heap.count id = 1) :
    id ∉ handles := by
  rw [h id, List.count_cons_self] at hone
  exact List.count_eq_zero.mp (by omega)

end Counted

end Heap

end Library
