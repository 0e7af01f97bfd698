/-
  Timely/Bytes.lean
  =================
  **Byte slices backed by a shared allocation** (`bytes/src/lib.rs`).

  An allocation is a counted cell of bytes, and a slice is a range of one.  The
  slices that exist own their memory: the counts are theirs, each lies inside its
  allocation, and no two have a byte in common.  Every operation keeps this, and
  changes no byte but those it writes.
-/
import Timely.Library.SharedHeap
import Timely.Library.Window
import Mathlib.Data.List.Pairwise
import Mathlib.Data.List.Perm.Basic

set_option linter.unusedSectionVars false

namespace Timely

open Library

/-- The allocations of bytes, each behind its count of references. -/
abbrev Memory := Heap (List UInt8)

/-- A byte buffer backed by a shared allocation. -/
structure Bytes where
  /-- Start of this slice, from the start of the allocation. -/
  ptr : ℕ
  /-- Length of this slice. -/
  len : ℕ
  /-- Shared access to the underlying allocation. -/
  sequestered : ℕ
  deriving DecidableEq

namespace Bytes

variable (memory : Memory) (b other : Bytes)

/-- Creates a new instance from a byte allocation. -/
def from_allocation (bytes : List UInt8) : Memory × Bytes :=
  (memory.alloc bytes, ⟨0, bytes.length, memory.next⟩)

/-- Extracts `[0, index)` into a new `Bytes`, which comes first; fails where the source
    asserts. -/
def extract_to (index : ℕ) : Option (Memory × Bytes × Bytes) :=
  if index ≤ b.len then
    some (memory.retain b.sequestered, { b with len := index },
      { b with ptr := b.ptr + index, len := b.len - index })
  else none

/-- Regenerates the `Bytes` if it is uniquely held, and says whether it is. -/
def try_regenerate : Bool × Bytes :=
  if memory.count b.sequestered = 1 then
    (true, { b with ptr := 0, len := (memory.value b.sequestered).length })
  else (false, b)

/-- Merges adjacent slices of one allocation; where they are not, gives the other back. -/
def try_merge : Except Bytes (Memory × Bytes) :=
  if b.sequestered = other.sequestered ∧ b.ptr + b.len = other.ptr then
    -- `other` was moved in, and its reference goes with it
    .ok (memory.release other.sequestered, { b with len := b.len + other.len })
  else .error other

/-- A `Bytes` that goes out of scope. -/
def drop : Memory := memory.release b.sequestered

/-- Reads the slice. -/
def deref : List UInt8 := window (memory.value b.sequestered) b.ptr b.len

/-- Writes a part of the slice; fails where the part ends beyond it. -/
def deref_mut (start : ℕ) (bytes : List UInt8) : Option Memory :=
  if start + bytes.length ≤ b.len then
    some (memory.update b.sequestered fun value => splice value (b.ptr + start) bytes)
  else none

/-- The positions of a slice in its allocation. -/
def span : Finset ℕ := Finset.Ico b.ptr (b.ptr + b.len)

/-- Two slices have no byte in common. -/
def Apart : Prop := b.sequestered = other.sequestered → Disjoint b.span other.span

variable {memory b other}

theorem Apart.symm (h : Apart b other) : Apart other b :=
  fun heq => (h heq.symm).symm

/-- A part of a slice is apart from what the slice is apart from. -/
theorem Apart.of_part {part : Bytes} (h : Apart b other)
    (hsame : part.sequestered = b.sequestered) (hstart : b.ptr ≤ part.ptr)
    (hend : part.ptr + part.len ≤ b.ptr + b.len) : Apart part other := by
  intro heq
  refine Finset.disjoint_of_subset_left ?_ (h (hsame.symm.trans heq))
  exact Finset.Ico_subset_Ico hstart hend

end Bytes

/-! ### Ownership -/

/-- The slices that exist own their memory. -/
structure Owned (memory : Memory) (live : List Bytes) : Prop where
  counted : memory.Counted (live.map Bytes.sequestered)
  inside : ∀ b ∈ live, b.ptr + b.len ≤ (memory.value b.sequestered).length
  apart : live.Pairwise Bytes.Apart

namespace Owned

variable {memory : Memory} {live live' : List Bytes} {b other : Bytes}

theorem nil : Owned ⟨[]⟩ [] := by
  refine ⟨fun id => ?_, fun _ hmem => absurd hmem List.not_mem_nil, List.Pairwise.nil⟩
  simp [Heap.count]

theorem perm (h : Owned memory live) (hperm : live.Perm live') : Owned memory live' := by
  refine ⟨h.counted.perm (hperm.map _), fun b hmem => h.inside b (hperm.mem_iff.mpr hmem), ?_⟩
  exact (hperm.pairwise_iff Bytes.Apart.symm).mp h.apart

theorem lt_next (h : Owned memory live) (hmem : b ∈ live) : b.sequestered < memory.next :=
  h.counted.lt_next (List.mem_map_of_mem hmem)

theorem length_deref (h : Owned memory live) (hmem : b ∈ live) :
    (b.deref memory).length = b.len :=
  length_window (h.inside b hmem)

theorem from_allocation (h : Owned memory live) (bytes : List UInt8) :
    Owned (Bytes.from_allocation memory bytes).1
      ((Bytes.from_allocation memory bytes).2 :: live) := by
  refine ⟨h.counted.alloc bytes, fun b hmem => ?_, List.pairwise_cons.mpr ⟨fun b hmem heq => ?_, h.apart⟩⟩
  · rcases List.mem_cons.mp hmem with rfl | hmem
    · simp [Bytes.from_allocation]
    · have hvalue := Heap.value_alloc bytes (h.lt_next hmem)
      simpa only [Bytes.from_allocation, hvalue] using h.inside b hmem
  · have := h.lt_next hmem
    have : memory.next = b.sequestered := heq
    omega

theorem deref_from_allocation (h : Owned memory live) (bytes : List UInt8) (hmem : b ∈ live) :
    b.deref (Bytes.from_allocation memory bytes).1 = b.deref memory := by
  have hvalue := Heap.value_alloc bytes (h.lt_next hmem)
  simp only [Bytes.deref, Bytes.from_allocation, hvalue]

theorem drop (h : Owned memory (b :: live)) : Owned (b.drop memory) live := by
  refine ⟨h.counted.release, fun c hmem => ?_, h.apart.of_cons⟩
  rw [Bytes.drop, Heap.value_release]
  exact h.inside c (List.mem_cons_of_mem _ hmem)

@[simp] theorem deref_drop {memory : Memory} {b c : Bytes} :
    c.deref (b.drop memory) = c.deref memory := by
  simp [Bytes.deref, Bytes.drop]

/-- A slice that is cut into two. -/
theorem extract_to {index : ℕ} {memory' : Memory} {front back : Bytes}
    (h : Owned memory (b :: live))
    (hcut : b.extract_to memory index = some (memory', front, back)) :
    Owned memory' (front :: back :: live) := by
  simp only [Bytes.extract_to] at hcut
  split at hcut
  case isFalse => cases hcut
  case isTrue hindex =>
    obtain ⟨rfl, rfl, rfl⟩ : _ ∧ _ ∧ _ := by simpa using hcut
    have hinside := h.inside b List.mem_cons_self
    have hapart := List.pairwise_cons.mp h.apart
    refine ⟨h.counted.retain, fun c hmem => ?_, ?_⟩
    · rw [Heap.value_retain]
      rcases List.mem_cons.mp hmem with rfl | hmem
      · exact le_trans (by simpa using by omega) hinside
      rcases List.mem_cons.mp hmem with rfl | hmem
      · exact le_trans (by simp only; omega) hinside
      · exact h.inside c (List.mem_cons_of_mem _ hmem)
    · refine List.pairwise_cons.mpr ⟨fun c hmem => ?_, List.pairwise_cons.mpr ⟨fun c hmem => ?_, hapart.2⟩⟩
      · rcases List.mem_cons.mp hmem with rfl | hmem
        · intro _
          refine Finset.disjoint_left.mpr fun i hfront hback => ?_
          simp only [Bytes.span, Finset.mem_Ico] at hfront hback
          omega
        · exact (hapart.1 c hmem).of_part rfl le_rfl (by simp only; omega)
      · exact (hapart.1 c hmem).of_part rfl (by simp only; omega) (by simp only; omega)

/-- The two parts of a cut slice read what it did, in order. -/
theorem deref_extract_to {index : ℕ} {memory' : Memory} {front back : Bytes}
    (hcut : b.extract_to memory index = some (memory', front, back)) :
    front.deref memory' = (b.deref memory).take index ∧
      back.deref memory' = (b.deref memory).drop index ∧
      ∀ id, memory'.value id = memory.value id := by
  simp only [Bytes.extract_to] at hcut
  split at hcut
  case isFalse => cases hcut
  case isTrue hindex =>
    obtain ⟨rfl, rfl, rfl⟩ : _ ∧ _ ∧ _ := by simpa using hcut
    refine ⟨?_, ?_, fun _ => Heap.value_retain⟩
    · rw [Bytes.deref, Bytes.deref, take_window hindex, Heap.value_retain]
    · rw [Bytes.deref, Bytes.deref, drop_window, Heap.value_retain]

/-- A slice that is held alone may be grown to the whole allocation. -/
theorem try_regenerate {whole : Bytes} (h : Owned memory (b :: live))
    (hwhole : b.try_regenerate memory = (true, whole)) :
    Owned memory (whole :: live) ∧ whole.sequestered = b.sequestered ∧ whole.ptr = 0 ∧
      whole.len = (memory.value b.sequestered).length := by
  simp only [Bytes.try_regenerate] at hwhole
  split at hwhole
  case isFalse => simp at hwhole
  case isTrue hone =>
    obtain rfl : _ = whole := by simpa using hwhole
    refine ⟨⟨h.counted, fun c hmem => ?_, List.pairwise_cons.mpr ⟨fun c hmem heq => ?_, h.apart.of_cons⟩⟩, rfl, rfl, rfl⟩
    · rcases List.mem_cons.mp hmem with rfl | hmem
      · exact (Nat.zero_add _).le
      · exact h.inside c (List.mem_cons_of_mem _ hmem)
    · -- no other slice shares the allocation
      refine absurd ?_ (h.counted.notMem_of_unique hone)
      rw [show b.sequestered = c.sequestered from heq]
      exact List.mem_map_of_mem hmem

/-- Adjacent slices that are merged. -/
theorem try_merge {memory' : Memory} {merged : Bytes} (h : Owned memory (b :: other :: live))
    (hmerge : b.try_merge memory other = .ok (memory', merged)) :
    Owned memory' (merged :: live) := by
  simp only [Bytes.try_merge] at hmerge
  split at hmerge
  case isFalse => cases hmerge
  case isTrue hadjacent =>
    obtain ⟨rfl, rfl⟩ : _ ∧ _ := by simpa using hmerge
    obtain ⟨hsame, hnext⟩ := hadjacent
    have hleft := List.pairwise_cons.mp h.apart
    have hright := List.pairwise_cons.mp hleft.2
    have hcounted : (memory.release other.sequestered).Counted
        (b.sequestered :: live.map Bytes.sequestered) :=
      Heap.Counted.release (h.counted.perm (List.Perm.swap _ _ _))
    refine ⟨hcounted, fun c hmem => ?_, List.pairwise_cons.mpr ⟨fun c hmem heq => ?_, hright.2⟩⟩
    · rw [Heap.value_release]
      rcases List.mem_cons.mp hmem with rfl | hmem
      · have hinside := h.inside other (by simp)
        rw [← hsame] at hinside
        simp only
        omega
      · exact h.inside c (by simp [hmem])
    · have hb := hleft.1 c (List.mem_cons_of_mem _ hmem) heq
      have hother := hright.1 c hmem (hsame.symm.trans heq)
      refine Finset.disjoint_left.mpr fun i hin hc => ?_
      simp only [Bytes.span, Finset.mem_Ico] at hin
      rcases Nat.lt_or_ge i other.ptr with hlt | hge
      · exact Finset.disjoint_left.mp hb (Finset.mem_Ico.mpr ⟨hin.1, by omega⟩) hc
      · exact Finset.disjoint_left.mp hother (Finset.mem_Ico.mpr ⟨hge, by omega⟩) hc

theorem deref_try_merge {memory' : Memory} {merged : Bytes}
    (hmerge : b.try_merge memory other = .ok (memory', merged)) :
    merged.deref memory' = b.deref memory ++ other.deref memory ∧
      ∀ id, memory'.value id = memory.value id := by
  simp only [Bytes.try_merge] at hmerge
  split at hmerge
  case isFalse => cases hmerge
  case isTrue hadjacent =>
    obtain ⟨rfl, rfl⟩ : _ ∧ _ := by simpa using hmerge
    refine ⟨?_, fun _ => Heap.value_release⟩
    rw [Bytes.deref, Bytes.deref, Bytes.deref, Heap.value_release, window_append, hadjacent.1,
      hadjacent.2]

/-! ### Writing -/

/-- A write needs room in the slice, and nothing else. -/
theorem deref_mut_eq_some_iff {start : ℕ} {bytes : List UInt8} {memory' : Memory} :
    b.deref_mut memory start bytes = some memory' ↔ start + bytes.length ≤ b.len ∧
      memory' = memory.update b.sequestered fun value => splice value (b.ptr + start) bytes := by
  rw [Bytes.deref_mut]
  by_cases hroom : start + bytes.length ≤ b.len
  · simp [hroom, eq_comm]
  · simp [hroom]

section Write

variable {start : ℕ} {bytes : List UInt8} {memory' : Memory}

theorem length_value_deref_mut (h : Owned memory live) (hmem : b ∈ live)
    (hwrite : b.deref_mut memory start bytes = some memory') (id : ℕ) :
    (memory'.value id).length = (memory.value id).length := by
  obtain ⟨hroom, rfl⟩ := deref_mut_eq_some_iff.mp hwrite
  have hinside := h.inside b hmem
  by_cases hid : b.sequestered = id
  · subst hid
    rw [Heap.value_update (h.lt_next hmem), length_splice (by omega)]
  · rw [Heap.value_update_ne hid]

theorem deref_mut (h : Owned memory live) (hmem : b ∈ live)
    (hwrite : b.deref_mut memory start bytes = some memory') : Owned memory' live := by
  refine ⟨?_, fun c hc => ?_, h.apart⟩
  · obtain ⟨-, rfl⟩ := deref_mut_eq_some_iff.mp hwrite
    exact h.counted.update _
  · rw [h.length_value_deref_mut hmem hwrite]
    exact h.inside c hc

/-- A write changes no slice that is apart from the part written. -/
theorem deref_deref_mut (h : Owned memory live) (hmem : b ∈ live)
    (hwrite : b.deref_mut memory start bytes = some memory') {c : Bytes}
    (hapart : Bytes.Apart c { b with ptr := b.ptr + start, len := bytes.length }) :
    c.deref memory' = c.deref memory := by
  obtain ⟨hroom, rfl⟩ := deref_mut_eq_some_iff.mp hwrite
  have hinside := h.inside b hmem
  by_cases hid : b.sequestered = c.sequestered
  · rw [Bytes.deref, Bytes.deref, ← hid, Heap.value_update (h.lt_next hmem)]
    exact window_splice_of_disjoint (by omega) (hapart hid.symm)
  · rw [Bytes.deref, Bytes.deref, Heap.value_update_ne hid]

/-- What was written is read. -/
theorem deref_deref_mut_self (h : Owned memory live) (hmem : b ∈ live)
    (hwrite : b.deref_mut memory start bytes = some memory') :
    Bytes.deref memory' { b with ptr := b.ptr + start, len := bytes.length } = bytes := by
  obtain ⟨hroom, rfl⟩ := deref_mut_eq_some_iff.mp hwrite
  have hinside := h.inside b hmem
  rw [Bytes.deref, Heap.value_update (h.lt_next hmem)]
  exact window_splice_self (by omega)

end Write

end Owned

end Timely
