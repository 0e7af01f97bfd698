/-
  Timely/Sort/BatchedVec.lean
  ===========================
  **Appendable collections of buffers** (`sort/src/stash.rs` and `batched_vec.rs`).

  Elements are written into a tail of fixed capacity, without a check; a full
  tail is put behind the full batches, and an empty buffer from the stash takes
  its place.  As long as the stash holds empty buffers with room, and of the
  granularity of the writes, every write has room and the elements stand in the
  order in which they came.
-/
import Mathlib.Data.PNat.Basic
import Mathlib.Data.List.Infix
import Mathlib.Tactic.Common

set_option linter.unusedSectionVars false

namespace Timely.Sort

/-- A vector: its elements, and how many there is room for. -/
structure Vec (T : Type) where
  items : List T
  capacity : ℕ
  fits : items.length ≤ capacity

namespace Vec

variable {T : Type} (vec : Vec T)

def with_capacity (capacity : ℕ) : Vec T := ⟨[], capacity, Nat.zero_le _⟩

def new : Vec T := with_capacity 0

/-- Empties the vector, and keeps its allocation. -/
def clear : Vec T := ⟨[], vec.capacity, Nat.zero_le _⟩

/-- Writes elements behind the last one, where there is room for them. -/
def extend (elements : List T) (h : vec.items.length + elements.length ≤ vec.capacity) : Vec T :=
  ⟨vec.items ++ elements, vec.capacity, by simpa using h⟩

/-- Removes the first elements. -/
def drain_to (count : ℕ) : Vec T :=
  ⟨vec.items.drop count, vec.capacity,
    (List.length_drop.trans_le (Nat.sub_le _ _)).trans vec.fits⟩

/-- Pushes an element; a full vector grows. -/
def push (element : T) : Vec T :=
  if h : vec.items.length + 1 ≤ vec.capacity then vec.extend [element] h
  else ⟨vec.items ++ [element], max (2 * vec.capacity) (vec.items.length + 1), by simp⟩

theorem items_push (vec : Vec T) (element : T) : (vec.push element).items = vec.items ++ [element] := by
  rw [push]
  split <;> rfl

theorem items_foldl_push (elements : List T) (vec : Vec T) :
    (elements.foldl push vec).items = vec.items ++ elements := by
  induction elements generalizing vec with
  | nil => exact (List.append_nil _).symm
  | cons element elements ih =>
    rw [List.foldl_cons, ih, items_push, List.append_assoc, List.singleton_append]

/-- The capacity is a positive multiple of `line`. -/
def Usable (line : ℕ) : Prop := line ∣ vec.capacity ∧ 0 < vec.capacity

theorem usable_of_ne_nil {vec : Vec T} {line : ℕ} (hline : line ∣ vec.capacity)
    (hne : vec.items ≠ []) : vec.Usable line :=
  ⟨hline, lt_of_lt_of_le (List.length_pos_iff.mpr hne) vec.fits⟩

end Vec

/-- The elements of some buffers, in order. -/
def elements {T : Type} (buffers : List (Vec T)) : List T := buffers.flatMap Vec.items

@[simp] theorem elements_nil {T : Type} : elements ([] : List (Vec T)) = [] := rfl

@[simp] theorem elements_append {T : Type} (first second : List (Vec T)) :
    elements (first ++ second) = elements first ++ elements second := List.flatMap_append

@[simp] theorem elements_cons {T : Type} (vec : Vec T) (buffers : List (Vec T)) :
    elements (vec :: buffers) = vec.items ++ elements buffers := List.flatMap_cons

/-! ### The stash -/

/-- Spare buffers; the last one is used first. -/
structure Stash (T : Type) where
  stashed : List (Vec T)
  default_capacity : ℕ

namespace Stash

variable {T : Type} (stash : Stash T)

def new (default_capacity : ℕ) : Stash T := ⟨[], default_capacity⟩

/-- A spare buffer, else a new one of the default capacity. -/
def get : Vec T × Stash T :=
  match stash.stashed.getLast? with
  | some vec => (vec, { stash with stashed := stash.stashed.dropLast })
  | none => (Vec.with_capacity stash.default_capacity, stash)

def give (vec : Vec T) : Stash T := { stash with stashed := stash.stashed ++ [vec] }

/-- The first loop of `rebalance`: buffers beyond the intended number are given away. -/
def give_away (stash : Stash T) (buffers : List (Vec T)) (intended : ℕ) :
    Stash T × List (Vec T) :=
  if h : stash.stashed.length > intended then
    give_away { stash with stashed := stash.stashed.dropLast }
      (buffers ++ [stash.stashed.getLast (List.ne_nil_of_length_pos (by omega))]) intended
  else (stash, buffers)
termination_by stash.stashed.length
decreasing_by
  simp only [List.length_dropLast]
  omega

/-- The second loop of `rebalance`: buffers are taken, the last one first, until there are as
    many as intended. -/
def take_in (stash : Stash T) (buffers : List (Vec T)) (intended : ℕ) : Stash T × List (Vec T) :=
  if h : stash.stashed.length < intended ∧ buffers.length > 0 then
    take_in (stash.give (buffers.getLast (List.ne_nil_of_length_pos h.2)).clear)
      buffers.dropLast intended
  else (stash, buffers)
termination_by buffers.length
decreasing_by
  simp only [List.length_dropLast]
  omega

def rebalance (buffers : List (Vec T)) (intended : ℕ) : Stash T × List (Vec T) :=
  let (stash, buffers) := stash.give_away buffers intended
  stash.take_in buffers intended

/-- The stash holds, and makes, empty buffers with room for whole lines. -/
structure Sound (line : ℕ) (stash : Stash T) : Prop where
  empty : ∀ vec ∈ stash.stashed, vec.items = []
  usable : ∀ vec ∈ stash.stashed, vec.Usable line
  default_usable : line ∣ stash.default_capacity ∧ 0 < stash.default_capacity

variable {stash} {line : ℕ}

theorem new_sound {capacity : ℕ} (hline : line ∣ capacity) (hpos : 0 < capacity) :
    (new capacity : Stash T).Sound line :=
  ⟨fun _ hmem => absurd hmem List.not_mem_nil, fun _ hmem => absurd hmem List.not_mem_nil,
    hline, hpos⟩

theorem Sound.get (h : stash.Sound line) :
    stash.get.1.items = [] ∧ stash.get.1.Usable line ∧ stash.get.2.Sound line := by
  rw [Stash.get]
  cases hlast : stash.stashed.getLast? with
  | none => exact ⟨rfl, h.default_usable, h⟩
  | some vec =>
    have hmem : vec ∈ stash.stashed := List.mem_of_getLast? hlast
    exact ⟨h.empty vec hmem, h.usable vec hmem,
      fun other hother => h.empty other (List.mem_of_mem_dropLast hother),
      fun other hother => h.usable other (List.mem_of_mem_dropLast hother), h.default_usable⟩

theorem Sound.give (h : stash.Sound line) {vec : Vec T} (hempty : vec.items = [])
    (husable : vec.Usable line) : (stash.give vec).Sound line := by
  refine ⟨fun other hmem => ?_, fun other hmem => ?_, h.default_usable⟩
  · rcases List.mem_append.mp hmem with hmem | hmem
    · exact h.empty other hmem
    · rwa [List.mem_singleton.mp hmem]
  · rcases List.mem_append.mp hmem with hmem | hmem
    · exact h.usable other hmem
    · rwa [List.mem_singleton.mp hmem]

theorem Sound.give_away (h : stash.Sound line) {buffers : List (Vec T)} (intended : ℕ)
    (hbuffers : ∀ vec ∈ buffers, vec.Usable line) :
    (stash.give_away buffers intended).1.Sound line ∧
      ∀ vec ∈ (stash.give_away buffers intended).2, vec.Usable line := by
  fun_induction Stash.give_away stash buffers intended with
  | case1 stash buffers hmore ih =>
    have hne : stash.stashed ≠ [] := List.ne_nil_of_length_pos (by omega)
    refine ih ⟨fun vec hmem => h.empty vec (List.mem_of_mem_dropLast hmem),
      fun vec hmem => h.usable vec (List.mem_of_mem_dropLast hmem), h.default_usable⟩
      fun vec hmem => ?_
    rcases List.mem_append.mp hmem with hmem | hmem
    · exact hbuffers vec hmem
    · rw [List.mem_singleton.mp hmem]
      exact h.usable _ (List.getLast_mem hne)
  | case2 stash buffers => exact ⟨h, hbuffers⟩

theorem Sound.take_in (h : stash.Sound line) {buffers : List (Vec T)} {intended : ℕ}
    (hbuffers : ∀ vec ∈ buffers, vec.Usable line) :
    (stash.take_in buffers intended).1.Sound line := by
  fun_induction Stash.take_in stash buffers intended with
  | case1 stash buffers hroom ih =>
    have hne : buffers ≠ [] := List.ne_nil_of_length_pos hroom.2
    have husable : (buffers.getLast hne).Usable line := hbuffers _ (List.getLast_mem hne)
    exact ih (h.give rfl husable)
      fun vec hmem => hbuffers vec (List.mem_of_mem_dropLast hmem)
  | case2 stash buffers => exact h

/-- Buffers with room for whole lines may be given back. -/
theorem Sound.rebalance (h : stash.Sound line) {buffers : List (Vec T)} {intended : ℕ}
    (hbuffers : ∀ vec ∈ buffers, vec.Usable line) :
    (stash.rebalance buffers intended).1.Sound line := by
  obtain ⟨hstash, hothers⟩ := h.give_away intended hbuffers
  exact hstash.take_in hothers

end Stash

/-! ### Batches -/

/-- A collection of full batches and a tail that is being filled. -/
structure BatchedVec (T : Type) where
  tail : Vec T
  batches : List (Vec T)

namespace BatchedVec

variable {T : Type} (b : BatchedVec T) (stash : Stash T)

def new : BatchedVec T := ⟨Vec.new, []⟩

/-- Only the tail is checked: any flush of the tail is followed by a push. -/
def is_empty : Bool := b.tail.items.isEmpty

/-- Replaces a full tail by a spare buffer. -/
def reserve : BatchedVec T × Stash T :=
  if b.tail.items.length = b.tail.capacity then
    let (fresh, stash) := stash.get
    (⟨fresh, if b.tail.items.isEmpty then b.batches else b.batches ++ [b.tail]⟩, stash)
  else (b, stash)

/-- Pushes an element; the write is not checked, and fails here where it has no room. -/
def push (element : T) : Option (BatchedVec T × Stash T) :=
  let (b, stash) := b.reserve stash
  if h : b.tail.items.length + 1 ≤ b.tail.capacity then
    some ({ b with tail := b.tail.extend [element] h }, stash)
  else none

/-- How many elements of a vector the tail has room for. -/
def to_move (vec : Vec T) : ℕ :=
  min (b.tail.capacity - b.tail.items.length) vec.items.length

theorem to_move_fits (vec : Vec T) :
    b.tail.items.length + (vec.items.take (b.to_move vec)).length ≤ b.tail.capacity := by
  have hfits := b.tail.fits
  simp only [to_move, List.length_take]
  omega

/-- Fills the tail from a vector, and keeps what is left as the new tail. -/
def push_vec (vec : Vec T) : BatchedVec T × Stash T :=
  let tail := b.tail.extend (vec.items.take (b.to_move vec)) (b.to_move_fits vec)
  let rest := vec.drain_to (b.to_move vec)
  if rest.items.isEmpty then ({ b with tail := tail }, stash.give rest)
  else (⟨rest, if tail.items.isEmpty then b.batches else b.batches ++ [tail]⟩, stash)

/-- Copies a slice behind the tail; panics where it has no room. -/
def push_all (slice : List T) : Option (BatchedVec T × Stash T) :=
  let (b, stash) := b.reserve stash
  if h : b.tail.items.length + slice.length ≤ b.tail.capacity then
    some ({ b with tail := b.tail.extend slice h }, stash)
  else none

/-- Moves the buffers behind those of a target. -/
def finish_into (target : List (Vec T)) : List (Vec T) × BatchedVec T :=
  if b.tail.items.isEmpty then (target ++ b.batches, ⟨b.tail, []⟩)
  else (target ++ b.batches ++ [b.tail], new)

/-- Takes the buffers. -/
def finish : List (Vec T) × BatchedVec T :=
  if b.tail.items.isEmpty then (b.batches, ⟨b.tail, []⟩) else (b.batches ++ [b.tail], new)

/-- The elements, in order. -/
def items : List T := elements b.batches ++ b.tail.items

/-- The buffers have room for whole lines, and the batches are not empty. -/
structure Sound (line : ℕ) (b : BatchedVec T) : Prop where
  tail_line : line ∣ b.tail.capacity
  batches_line : ∀ vec ∈ b.batches, line ∣ vec.capacity
  batches_ne : ∀ vec ∈ b.batches, vec.items ≠ []

/-- An empty tail means that there are no batches. -/
def Packed (b : BatchedVec T) : Prop := b.tail.items = [] → b.batches = []

/-- The bucket consists of whole lines. -/
structure Lined (line : ℕ) (b : BatchedVec T) : Prop where
  sound : b.Sound line
  aligned : line ∣ b.tail.items.length
  packed : b.Packed

variable {b stash} {line : ℕ}

theorem new_sound : (new : BatchedVec T).Sound line :=
  ⟨Nat.dvd_zero line, fun _ hmem => absurd hmem List.not_mem_nil,
    fun _ hmem => absurd hmem List.not_mem_nil⟩

theorem new_lined : (new : BatchedVec T).Lined line :=
  ⟨new_sound, Nat.dvd_zero line, fun _ => rfl⟩

@[simp] theorem items_new : (new : BatchedVec T).items = [] := rfl

theorem Packed.is_empty_iff (h : b.Packed) : b.is_empty = true ↔ b.items = [] := by
  rw [is_empty, List.isEmpty_iff, items, List.append_eq_nil_iff]
  constructor
  · intro htail
    rw [h htail]
    exact ⟨rfl, htail⟩
  · exact And.right

/-- After `reserve` the tail has room, and nothing has moved. -/
theorem reserve_spec (hb : b.Sound line) (hs : stash.Sound line) :
    (b.reserve stash).1.Sound line ∧ (b.reserve stash).2.Sound line ∧
      (b.reserve stash).1.items = b.items ∧
      (b.reserve stash).1.tail.items.length < (b.reserve stash).1.tail.capacity ∧
      (line ∣ b.tail.items.length → line ∣ (b.reserve stash).1.tail.items.length) := by
  rw [reserve]
  by_cases hfull : b.tail.items.length = b.tail.capacity
  · rw [if_pos hfull]
    obtain ⟨hempty, ⟨hline, hpos⟩, hrest⟩ := hs.get
    by_cases htail : b.tail.items = []
    · refine ⟨⟨hline, ?_, ?_⟩, hrest, ?_, ?_, fun _ => ?_⟩
      · simpa [htail] using hb.batches_line
      · simpa [htail] using hb.batches_ne
      · simp [items, htail, hempty]
      · simpa [hempty] using hpos
      · simp [hempty]
    · refine ⟨⟨hline, ?_, ?_⟩, hrest, ?_, ?_, fun _ => ?_⟩
      · simp only [htail, List.isEmpty_iff, if_false, List.mem_append, List.mem_singleton]
        rintro vec (hmem | rfl)
        · exact hb.batches_line vec hmem
        · exact hb.tail_line
      · simp only [htail, List.isEmpty_iff, if_false, List.mem_append, List.mem_singleton]
        rintro vec (hmem | rfl)
        · exact hb.batches_ne vec hmem
        · exact htail
      · simp [items, htail, hempty]
      · simpa [hempty] using hpos
      · simp [hempty]
  · rw [if_neg hfull]
    exact ⟨hb, hs, rfl, lt_of_le_of_ne b.tail.fits hfull, id⟩

theorem push_spec (hb : b.Sound line) (hs : stash.Sound line) (element : T) :
    ∃ b' stash', b.push stash element = some (b', stash') ∧ b'.Sound line ∧ stash'.Sound line ∧
      b'.items = b.items ++ [element] ∧ b'.tail.items ≠ [] := by
  obtain ⟨hsound, hrest, hitems, hroom, -⟩ := reserve_spec hb hs
  rcases hreserve : b.reserve stash with ⟨b₁, stash₁⟩
  rw [hreserve] at hsound hrest hitems hroom
  simp only at hsound hrest hitems hroom
  refine ⟨{ b₁ with tail := b₁.tail.extend [element] hroom }, stash₁, ?_,
    ⟨hsound.tail_line, hsound.batches_line, hsound.batches_ne⟩, hrest, ?_, ?_⟩
  · simp only [push, hreserve]
    exact dif_pos hroom
  · rw [← hitems]
    simp only [items, Vec.extend, List.append_assoc]
  · exact List.append_ne_nil_of_right_ne_nil _ (List.cons_ne_nil _ _)

/-- A slice of at most one line fits behind a tail of whole lines. -/
theorem push_all_spec (hb : b.Sound line) (hs : stash.Sound line)
    (haligned : line ∣ b.tail.items.length) {slice : List T} (hslice : slice.length ≤ line)
    (hne : slice ≠ []) :
    ∃ b' stash', b.push_all stash slice = some (b', stash') ∧ b'.Sound line ∧ stash'.Sound line ∧
      b'.items = b.items ++ slice ∧ b'.tail.items ≠ [] ∧
      (slice.length = line → line ∣ b'.tail.items.length) := by
  obtain ⟨hsound, hrest, hitems, hroom, halign⟩ := reserve_spec hb hs
  rcases hreserve : b.reserve stash with ⟨b₁, stash₁⟩
  rw [hreserve] at hsound hrest hitems hroom halign
  simp only at hsound hrest hitems hroom halign
  have hfits : b₁.tail.items.length + slice.length ≤ b₁.tail.capacity := by
    have hgap : line ∣ b₁.tail.capacity - b₁.tail.items.length :=
      Nat.dvd_sub hsound.tail_line (halign haligned)
    have := Nat.le_of_dvd (by omega) hgap
    omega
  refine ⟨{ b₁ with tail := b₁.tail.extend slice hfits }, stash₁, ?_,
    ⟨hsound.tail_line, hsound.batches_line, hsound.batches_ne⟩, hrest, ?_, ?_, fun hwhole => ?_⟩
  · simp only [push_all, hreserve]
    exact dif_pos hfits
  · rw [← hitems]
    simp only [items, Vec.extend, List.append_assoc]
  · exact List.append_ne_nil_of_right_ne_nil _ hne
  · simp only [Vec.extend, List.length_append, hwhole]
    exact Nat.dvd_add (halign haligned) (Nat.dvd_refl line)

theorem push_vec_spec (hb : b.Sound line) (hs : stash.Sound line) {vec : Vec T}
    (hvec : vec.Usable line) :
    (b.push_vec stash vec).1.Sound line ∧ (b.push_vec stash vec).2.Sound line ∧
      (b.push_vec stash vec).1.items = b.items ++ vec.items := by
  simp only [push_vec]
  have hwhole : vec.items.take (b.to_move vec) ++ vec.items.drop (b.to_move vec) = vec.items :=
    List.take_append_drop _ _
  by_cases hrest : vec.items.drop (b.to_move vec) = []
  · -- everything fits into the tail
    rw [if_pos (by simpa [Vec.drain_to] using hrest)]
    refine ⟨⟨hb.tail_line, hb.batches_line, hb.batches_ne⟩, hs.give hrest hvec, ?_⟩
    rw [hrest, List.append_nil] at hwhole
    simp only [items, Vec.extend, hwhole, List.append_assoc]
  · rw [if_neg (by simpa [Vec.drain_to] using hrest)]
    refine ⟨⟨hvec.1, fun other hmem => ?_, fun other hmem => ?_⟩, hs, ?_⟩
    · split at hmem
      · exact hb.batches_line other hmem
      · rcases List.mem_append.mp hmem with hmem | hmem
        · exact hb.batches_line other hmem
        · rw [List.mem_singleton.mp hmem]
          exact hb.tail_line
    · split at hmem
      · exact hb.batches_ne other hmem
      · rename_i htail
        rcases List.mem_append.mp hmem with hmem | hmem
        · exact hb.batches_ne other hmem
        · rw [List.mem_singleton.mp hmem]
          simpa using htail
    · split
      · rename_i htail
        obtain ⟨hold, hmoved⟩ := List.append_eq_nil_iff.mp (List.isEmpty_iff.mp htail)
        rw [hmoved, List.nil_append] at hwhole
        simp only [items, hold, List.append_nil, Vec.drain_to, hwhole]
      · simp only [items, elements_append, elements_cons, elements_nil, List.append_nil,
          Vec.extend, Vec.drain_to, List.append_assoc, hwhole]

/-- What is finished is usable again, and nothing is left. -/
theorem finish_spec (hb : b.Sound line) :
    elements b.finish.1 = b.items ∧ (∀ vec ∈ b.finish.1, vec.Usable line) ∧
      b.finish.2.Lined line ∧ b.finish.2.items = [] := by
  have hbatches : ∀ vec ∈ b.batches, vec.Usable line := fun vec hmem =>
    Vec.usable_of_ne_nil (hb.batches_line vec hmem) (hb.batches_ne vec hmem)
  rw [finish]
  by_cases htail : b.tail.items = []
  · rw [if_pos (by simpa using htail)]
    refine ⟨by simp [items, htail], hbatches, ⟨⟨hb.tail_line, by simp, by simp⟩, ?_, fun _ => rfl⟩, ?_⟩
    · simp [htail]
    · simp [items, htail]
  · rw [if_neg (by simpa using htail)]
    refine ⟨by simp [items], fun vec hmem => ?_, new_lined, rfl⟩
    rcases List.mem_append.mp hmem with hmem | hmem
    · exact hbatches vec hmem
    · rw [List.mem_singleton.mp hmem]
      exact Vec.usable_of_ne_nil hb.tail_line htail

theorem finish_into_eq (target : List (Vec T)) :
    b.finish_into target = (target ++ b.finish.1, b.finish.2) := by
  rw [finish_into, finish]
  split
  · rfl
  · rw [List.append_assoc]

end BatchedVec

end Timely.Sort
