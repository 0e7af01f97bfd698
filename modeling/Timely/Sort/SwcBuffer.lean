/-
  Timely/Sort/SwcBuffer.lean
  ==========================
  **A write-combining buffer** (`sort/src/swc_buffer.rs`).

  One allocation holds a line of elements for each of the 256 byte values, next
  to each other, and a count for each.  Elements are written and read by offset,
  without a check.  As long as no count exceeds the length of a line, the lines
  do not overlap, and each reads as the elements that were put into it.
-/
import Timely.Sort.BatchedVec
import Mathlib.Data.List.Forall2
import Mathlib.Logic.Function.Basic

set_option linter.unusedSectionVars false

namespace Timely.Sort

/-- How many elements of a (positive) size a cache line holds, but at least four. -/
def per_cache_line (size : ℕ+) : ℕ := max (64 / size) 4

theorem per_cache_line_pos (size : ℕ+) : 0 < per_cache_line size :=
  lt_of_lt_of_le (by decide) (le_max_right _ _)

/-- The counts of the lines, and the allocation; a slot that was not written reads as `none`. -/
structure SWCBuffer (T : Type) where
  counts : Fin 256 → ℕ
  staged : ℕ → Option T

namespace SWCBuffer

variable {T : Type} (size : ℕ+) (buffer : SWCBuffer T) (byte : Fin 256)

def new : SWCBuffer T := ⟨fun _ => 0, fun _ => none⟩

/-- The slot of an element of a line. -/
def offset (i : ℕ) : ℕ := per_cache_line size * byte + i

/-- The elements of a line; fails where a slot was not written. -/
def slice : Option (List T) :=
  (List.range (buffer.counts byte)).mapM fun i => buffer.staged (offset size byte i)

def full : Bool := buffer.counts byte = per_cache_line size

def count : ℕ := buffer.counts byte

/-- Writes an element behind a line; fails where that is outside of the allocation. -/
def push (element : T) : Option (SWCBuffer T) :=
  if offset size byte (buffer.counts byte) < 256 * per_cache_line size then
    some ⟨Function.update buffer.counts byte (buffer.counts byte + 1),
      Function.update buffer.staged (offset size byte (buffer.counts byte)) (some element)⟩
  else none

/-- Forgets the elements of a line. -/
def reset : SWCBuffer T := { buffer with counts := Function.update buffer.counts byte 0 }

/-- Moves a line behind the elements of a bucket. -/
def drain_into (batch : BatchedVec T) (stash : Stash T) :
    Option (SWCBuffer T × BatchedVec T × Stash T) :=
  if buffer.counts byte > 0 then do
    let slice ← buffer.slice size byte
    let (batch, stash) ← batch.push_all stash slice
    return (buffer.reset byte, batch, stash)
  else return (buffer, batch, stash)

/-- Moves a line behind the elements of a vector. -/
def drain_into_vec (batch : Vec T) : Option (SWCBuffer T × Vec T) := do
  let slice ← buffer.slice size byte
  return (buffer.reset byte, slice.foldl Vec.push batch)

/-! ### Lines -/

/-- The buffer holds these lines. -/
structure Holds (size : ℕ+) (buffer : SWCBuffer T) (lines : Fin 256 → List T) : Prop where
  count : ∀ byte, buffer.counts byte = (lines byte).length
  bound : ∀ byte, (lines byte).length ≤ per_cache_line size
  staged : ∀ byte i, i < (lines byte).length →
    buffer.staged (offset size byte i) = (lines byte)[i]?

variable {size buffer byte} {lines : Fin 256 → List T}

theorem new_holds : (new : SWCBuffer T).Holds size fun _ => [] :=
  ⟨fun _ => rfl, fun _ => Nat.zero_le _, fun _ _ hi => absurd hi (Nat.not_lt_zero _)⟩

theorem mapM_eq_some {α β : Type} {f : α → Option β} {xs : List α} {ys : List β}
    (h : List.Forall₂ (fun x y => f x = some y) xs ys) : xs.mapM f = some ys := by
  induction h with
  | nil => rfl
  | cons hhead _ ih =>
    rw [List.mapM_cons, hhead, ih]
    rfl

theorem Holds.slice (h : buffer.Holds size lines) (byte : Fin 256) :
    buffer.slice size byte = some (lines byte) := by
  refine mapM_eq_some (List.forall₂_iff_get.mpr ⟨by rw [List.length_range, h.count], ?_⟩)
  intro i hrange hi
  simp only [List.get_eq_getElem, List.getElem_range]
  rw [h.staged byte i hi, List.getElem?_eq_getElem hi]

theorem Holds.full_iff (h : buffer.Holds size lines) (byte : Fin 256) :
    buffer.full size byte = true ↔ (lines byte).length = per_cache_line size := by
  simp [full, h.count]

/-- Slots of different lines are different. -/
theorem offset_ne {byte' : Fin 256} {i j : ℕ} (hne : byte ≠ byte') (hi : i < per_cache_line size)
    (hj : j < per_cache_line size) : offset size byte i ≠ offset size byte' j := by
  intro heq
  have hdiv : ∀ (b : Fin 256) {k : ℕ}, k < per_cache_line size →
      offset size b k / per_cache_line size = b := by
    intro b k hk
    rw [offset, Nat.mul_add_div (per_cache_line_pos size), Nat.div_eq_of_lt hk, Nat.add_zero]
  exact hne (Fin.ext (by rw [← hdiv byte hi, heq, hdiv byte' hj]))

/-- A line that is not full takes another element. -/
theorem Holds.push (h : buffer.Holds size lines)
    (hroom : (lines byte).length < per_cache_line size) (element : T) :
    ∃ buffer', buffer.push size byte element = some buffer' ∧
      buffer'.Holds size (Function.update lines byte (lines byte ++ [element])) := by
  have hcount := h.count byte
  have hinside : offset size byte (buffer.counts byte) < 256 * per_cache_line size := by
    have hbyte : (byte : ℕ) + 1 ≤ 256 := byte.isLt
    have := Nat.mul_le_mul_left (per_cache_line size) hbyte
    rw [offset]
    rw [Nat.mul_add] at this
    omega
  refine ⟨_, if_pos hinside, fun b => ?_, fun b => ?_, fun b i hi => ?_⟩
  · by_cases hb : b = byte
    · subst hb
      simp [hcount]
    · simp [hb, h.count b]
  · by_cases hb : b = byte
    · subst hb
      simp only [Function.update_self, List.length_append, List.length_singleton]
      omega
    · simpa [hb] using h.bound b
  · by_cases hb : b = byte
    · subst hb
      simp only [Function.update_self, List.length_append, List.length_singleton] at hi ⊢
      by_cases hlast : i = (lines b).length
      · rw [hlast, hcount, Function.update_self]
        simp
      · have hold : i < (lines b).length := by omega
        rw [Function.update_of_ne (by simp only [offset]; omega), h.staged b i hold,
          List.getElem?_append_left hold]
    · rw [Function.update_of_ne hb] at hi ⊢
      have hne := offset_ne hb (lt_of_lt_of_le hi (h.bound b)) hroom
      rw [hcount]
      exact (Function.update_of_ne hne _ _).trans (h.staged b i hi)

theorem Holds.reset (h : buffer.Holds size lines) (byte : Fin 256) :
    (buffer.reset byte).Holds size (Function.update lines byte []) := by
  refine ⟨fun b => ?_, fun b => ?_, fun b i hi => ?_⟩
  · by_cases hb : b = byte
    · subst hb
      simp [SWCBuffer.reset]
    · simp [SWCBuffer.reset, hb, h.count b]
  · by_cases hb : b = byte
    · subst hb
      simp
    · simpa [hb] using h.bound b
  · by_cases hb : b = byte
    · subst hb
      simp at hi
    · rw [Function.update_of_ne hb] at hi ⊢
      exact h.staged b i hi

/-- A line moves behind a bucket of whole lines. -/
theorem Holds.drain_into (h : buffer.Holds size lines) {b : BatchedVec T} {stash : Stash T}
    (hb : b.Lined (per_cache_line size)) (hs : stash.Sound (per_cache_line size))
    (byte : Fin 256) :
    ∃ buffer' b' stash', buffer.drain_into size byte b stash = some (buffer', b', stash') ∧
      buffer'.Holds size (Function.update lines byte []) ∧ b'.Sound (per_cache_line size) ∧
      stash'.Sound (per_cache_line size) ∧ b'.items = b.items ++ lines byte ∧ b'.Packed ∧
      ((lines byte).length = per_cache_line size → b'.Lined (per_cache_line size)) := by
  rw [SWCBuffer.drain_into, h.count]
  by_cases hempty : lines byte = []
  · have hsame : Function.update lines byte [] = lines := by
      rw [← hempty, Function.update_eq_self]
    refine ⟨buffer, b, stash, by simp [hempty], by rwa [hsame], hb.sound, hs, by simp [hempty],
      hb.packed, fun _ => hb⟩
  · obtain ⟨b', stash', hpush, hb', hs', hitems, hne, hline⟩ :=
      BatchedVec.push_all_spec hb.sound hs hb.aligned (h.bound byte) hempty
    have hpacked : b'.Packed := fun htail => absurd htail hne
    refine ⟨buffer.reset byte, b', stash', ?_, h.reset byte, hb', hs', hitems, hpacked,
      fun hwhole => ⟨hb', hline hwhole, hpacked⟩⟩
    rw [if_pos (List.length_pos_iff.mpr hempty), h.slice, Option.bind_eq_bind, Option.bind_some,
      hpush]
    rfl

/-- A line that has room behind a vector moves there, without a new allocation. -/
theorem Holds.drain_into_vec (h : buffer.Holds size lines) {vec : Vec T}
    (hroom : (lines byte).length ≤ vec.capacity - vec.items.length) :
    ∃ vec', buffer.drain_into_vec size byte vec = some (buffer.reset byte, vec') ∧
      vec'.items = vec.items ++ lines byte ∧ vec'.capacity = vec.capacity := by
  have hpush : ∀ (slice : List T) (vec : Vec T), slice.length ≤ vec.capacity - vec.items.length →
      (slice.foldl Vec.push vec).items = vec.items ++ slice ∧
        (slice.foldl Vec.push vec).capacity = vec.capacity := by
    intro slice
    induction slice with
    | nil => exact fun vec _ => ⟨(List.append_nil _).symm, rfl⟩
    | cons element slice ih =>
      intro vec hroom
      rw [List.length_cons] at hroom
      have hfits : vec.items.length + 1 ≤ vec.capacity := by omega
      have hone : vec.push element = vec.extend [element] hfits := dif_pos hfits
      obtain ⟨hitems, hcapacity⟩ := ih (vec.extend [element] hfits)
        (by simp only [Vec.extend, List.length_append, List.length_singleton]; omega)
      rw [List.foldl_cons, hone, hitems, hcapacity]
      refine ⟨?_, rfl⟩
      simp only [Vec.extend, List.append_assoc, List.singleton_append]
  obtain ⟨hitems, hcapacity⟩ := hpush (lines byte) vec hroom
  refine ⟨_, ?_, hitems, hcapacity⟩
  rw [SWCBuffer.drain_into_vec, h.slice]
  rfl

end SWCBuffer

end Timely.Sort
