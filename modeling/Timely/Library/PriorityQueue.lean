/-
  Timely/Library/PriorityQueue.lean
  =================================
  **Priority queues whose order among equal priorities is left open.**

  A binary heap exposes its items in the order of their priorities.  Which of two
  items of one priority comes first depends on how the items lie in the heap, and
  is not specified.  So the heap is a parameter here, of which only this is known:
  what is pushed is added to its items, and popping takes them away in an order
  that follows the priorities.  A sorted list is one such heap, a binary heap in an
  array is another one.
-/
import Mathlib.Data.List.Sort
import Mathlib.Data.List.TakeWhile

namespace Library

/-- A heap.  `items` lists what a layout holds, in the order in which successive calls of `pop` would
    return it. -/
class PriorityHeap.{u} (A : Type u) (before : A → A → Prop) where
  Layout : Type u
  items : Layout → List A
  new : Layout
  push : Layout → A → Layout
  pop : Layout → Option (A × Layout)
  sorted : ∀ layout, (items layout).Pairwise before
  items_new : items new = []
  perm_push : ∀ layout item, (items (push layout item)).Perm (item :: items layout)
  items_of_pop_none : ∀ layout, pop layout = none → items layout = []
  items_of_pop_some : ∀ layout item rest, pop layout = some (item, rest) → items layout = item :: items rest

/-- A queue, as it lies in its heap. -/
structure PriorityQueue (A : Type*) (before : A → A → Prop) [PriorityHeap A before] where
  layout : PriorityHeap.Layout before

namespace PriorityQueue

variable {A : Type*} {before : A → A → Prop} [PriorityHeap A before]

/-- The items of a queue, in the order in which they are popped. -/
def items (queue : PriorityQueue A before) : List A := PriorityHeap.items queue.layout

/-- An empty queue. -/
def new : PriorityQueue A before := ⟨PriorityHeap.new⟩

def is_empty (queue : PriorityQueue A before) : Bool := queue.items.isEmpty

/-- The first item. -/
def peek (queue : PriorityQueue A before) : Option A := queue.items.head?

def push (queue : PriorityQueue A before) (item : A) : PriorityQueue A before := ⟨PriorityHeap.push queue.layout item⟩

/-- The first item, and the queue without it. -/
def pop (queue : PriorityQueue A before) : Option (A × PriorityQueue A before) :=
  (PriorityHeap.pop queue.layout).map fun popped => (popped.1, ⟨popped.2⟩)

/-- Pop at most so many items, while the first one meets a condition. -/
def pop_up_to (condition : A → Bool) : ℕ → PriorityQueue A before → PriorityQueue A before
  | 0, queue => queue
  | count + 1, queue =>
    match queue.pop with
    | none => queue
    | some (item, rest) => if condition item then pop_up_to condition count rest else queue

/-- The queue without the first items that meet a condition. -/
def pop_while (queue : PriorityQueue A before) (condition : A → Bool) : PriorityQueue A before :=
  queue.pop_up_to condition queue.items.length

@[simp] theorem items_new : (new : PriorityQueue A before).items = [] := PriorityHeap.items_new

theorem sorted (queue : PriorityQueue A before) : queue.items.Pairwise before := PriorityHeap.sorted queue.layout

/-- What is popped was the first item. -/
theorem items_of_pop {queue rest : PriorityQueue A before} {item : A} (h : queue.pop = some (item, rest)) :
    queue.items = item :: rest.items := by
  obtain ⟨popped, hpopped, heq⟩ := Option.map_eq_some_iff.mp h
  cases heq
  exact PriorityHeap.items_of_pop_some _ _ _ hpopped

theorem pop_eq_none {queue : PriorityQueue A before} : queue.pop = none ↔ queue.items = [] := by
  constructor
  · intro h
    exact PriorityHeap.items_of_pop_none _ (Option.map_eq_none_iff.mp h)
  · intro h
    cases hpop : queue.pop with
    | none => rfl
    | some popped =>
      obtain ⟨item, rest⟩ := popped
      have hitems := items_of_pop hpop
      rw [h] at hitems
      cases hitems

/-- What is popped is before all that is left. -/
theorem before_of_pop {queue rest : PriorityQueue A before} {item other : A}
    (h : queue.pop = some (item, rest)) (hother : other ∈ rest.items) : before item other := by
  have hsorted := queue.sorted
  rw [items_of_pop h] at hsorted
  exact List.rel_of_pairwise_cons hsorted hother

theorem items_pop_up_to (condition : A → Bool) (count : ℕ) (queue : PriorityQueue A before)
    (henough : queue.items.length ≤ count) :
    (queue.pop_up_to condition count).items = queue.items.dropWhile condition := by
  induction count generalizing queue with
  | zero =>
    have hnone : queue.items = [] := List.length_eq_zero_iff.mp (Nat.le_zero.mp henough)
    unfold pop_up_to
    rw [hnone, List.dropWhile_nil]
  | succ count ih =>
    unfold pop_up_to
    cases hpop : queue.pop with
    | none =>
      dsimp only
      rw [pop_eq_none.mp hpop, List.dropWhile_nil]
    | some popped =>
      obtain ⟨item, rest⟩ := popped
      have hitems := items_of_pop hpop
      rw [hitems, List.length_cons] at henough
      dsimp only
      rw [hitems, List.dropWhile_cons]
      split
      · exact ih rest (Nat.le_of_succ_le_succ henough)
      · exact hitems

/-- Popping while a condition is met drops the first items that meet it. -/
theorem items_pop_while (queue : PriorityQueue A before) (condition : A → Bool) :
    (queue.pop_while condition).items = queue.items.dropWhile condition :=
  items_pop_up_to condition _ queue le_rfl

/-- Popping while a condition is met loses only items that meet it. -/
theorem mem_pop_while {queue : PriorityQueue A before} {item : A} (h : item ∈ queue.items)
    (condition : A → Bool) : condition item = true ∨ item ∈ (queue.pop_while condition).items := by
  rw [items_pop_while]
  rw [← List.takeWhile_append_dropWhile (p := condition) (l := queue.items)] at h
  rcases List.mem_append.mp h with hdropped | hkept
  · exact Or.inl (List.mem_takeWhile_imp hdropped)
  · exact Or.inr hkept

theorem mem_of_mem_pop_while {queue : PriorityQueue A before} {condition : A → Bool} {item : A}
    (h : item ∈ (queue.pop_while condition).items) : item ∈ queue.items := by
  rw [items_pop_while] at h
  exact (List.dropWhile_sublist _).mem h

theorem length_pop_while_le (queue : PriorityQueue A before) (condition : A → Bool) :
    (queue.pop_while condition).items.length ≤ queue.items.length := by
  rw [items_pop_while]
  exact (List.dropWhile_sublist _).length_le

theorem perm_push (queue : PriorityQueue A before) (item : A) :
    (queue.push item).items.Perm (item :: queue.items) :=
  PriorityHeap.perm_push queue.layout item

@[simp] theorem mem_push {queue : PriorityQueue A before} {item other : A} :
    other ∈ (queue.push item).items ↔ other = item ∨ other ∈ queue.items := by
  rw [(queue.perm_push item).mem_iff, List.mem_cons]

theorem mem_foldl_push {queue : PriorityQueue A before} {items : List A} {other : A} :
    other ∈ (items.foldl push queue).items ↔ other ∈ items ∨ other ∈ queue.items := by
  induction items generalizing queue with
  | nil => simp
  | cons item items ih =>
    rw [List.foldl_cons, ih, mem_push, List.mem_cons, or_assoc, or_left_comm]

end PriorityQueue

/-! ### A sorted list as a heap -/

variable {A : Type*} {before : A → A → Prop}

/-- The first item of a sorted list, and the list without it. -/
def pop_sorted : {items : List A // items.Pairwise before} → Option (A × {items : List A // items.Pairwise before})
  | ⟨[], _⟩ => none
  | ⟨item :: rest, sorted⟩ => some (item, ⟨rest, sorted.of_cons⟩)

/-- In a sorted list the last one that has been pushed comes first among items of one priority. -/
instance sortedList [DecidableRel before] [Std.Total before] [IsTrans A before] : PriorityHeap A before where
  Layout := {items : List A // items.Pairwise before}
  items := Subtype.val
  new := ⟨[], List.Pairwise.nil⟩
  push layout item := ⟨layout.1.orderedInsert before item, layout.2.orderedInsert item _⟩
  pop := pop_sorted
  sorted layout := layout.2
  items_new := rfl
  perm_push _ _ := List.perm_orderedInsert _ _ _
  items_of_pop_none
    | ⟨[], _⟩, _ => rfl
  items_of_pop_some
    | ⟨_ :: _, _⟩, _, _, h => by cases h; rfl

end Library
