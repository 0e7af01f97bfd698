/-
  Timely/Library/Window.lean
  ==========================
  **Windows into a list.**

  A window is a run of consecutive positions.  Reading one and overwriting one
  are told apart by the positions alone: an overwritten window changes no other
  window that shares no position with it.
-/
import Mathlib.Data.Finset.Disjoint
import Mathlib.Order.Interval.Finset.Nat
import Mathlib.Data.List.TakeDrop
import Mathlib.Tactic.Common

namespace Library

variable {α : Type*}

/-- The items of a list at `start`, `start + 1`, …, `len` of them. -/
def window (items : List α) (start len : ℕ) : List α := (items.drop start).take len

/-- Overwrites the items from `start` on. -/
def splice (items : List α) (start : ℕ) (fresh : List α) : List α :=
  items.take start ++ fresh ++ items.drop (start + fresh.length)

variable {items fresh : List α} {start len cut first second : ℕ}

theorem getElem?_window {i : ℕ} :
    (window items start len)[i]? = if i < len then items[start + i]? else none := by
  rw [window, List.getElem?_take]
  by_cases hi : i < len
  · rw [if_pos hi, if_pos hi, List.getElem?_drop]
  · rw [if_neg hi, if_neg hi]

theorem length_window (h : start + len ≤ items.length) : (window items start len).length = len := by
  simp only [window, List.length_take, List.length_drop]
  omega

/-- A window is cut into two. -/
theorem window_append : window items start (first + second)
    = window items start first ++ window items (start + first) second := by
  simp only [window, List.take_add, List.drop_drop]

theorem take_window (h : cut ≤ len) : (window items start len).take cut = window items start cut := by
  simp only [window, List.take_take, Nat.min_eq_left h]

theorem drop_window :
    (window items start len).drop cut = window items (start + cut) (len - cut) := by
  simp only [window, List.drop_take, List.drop_drop]

theorem length_splice (h : start + fresh.length ≤ items.length) :
    (splice items start fresh).length = items.length := by
  simp only [splice, List.length_append, List.length_take, List.length_drop]
  omega

theorem getElem?_splice (h : start + fresh.length ≤ items.length) {i : ℕ} :
    (splice items start fresh)[i]?
      = if start ≤ i ∧ i < start + fresh.length then fresh[i - start]? else items[i]? := by
  have hlen : (items.take start).length = start := by
    rw [List.length_take]
    omega
  rcases Nat.lt_or_ge i start with hlt | hge
  · rw [if_neg (by omega), splice, List.append_assoc, List.getElem?_append_left (by omega),
      List.getElem?_take, if_pos hlt]
  · rw [splice, List.append_assoc, List.getElem?_append_right (by omega), hlen]
    rcases Nat.lt_or_ge i (start + fresh.length) with hin | hout
    · rw [if_pos ⟨hge, hin⟩, List.getElem?_append_left (by omega)]
    · rw [if_neg (by omega), List.getElem?_append_right (by omega), List.getElem?_drop]
      congr 1
      omega

/-- What was written is read. -/
theorem window_splice_self (h : start + fresh.length ≤ items.length) :
    window (splice items start fresh) start fresh.length = fresh := by
  refine List.ext_getElem? fun i => ?_
  rw [getElem?_window, getElem?_splice h]
  by_cases hi : i < fresh.length
  · rw [if_pos hi, if_pos (by omega), Nat.add_sub_cancel_left]
  · rw [if_neg hi, List.getElem?_eq_none (by omega)]

/-- A window with no position in common with what was written reads as before. -/
theorem window_splice_of_disjoint (h : start + fresh.length ≤ items.length)
    (hdisjoint : Disjoint (Finset.Ico first (first + len))
      (Finset.Ico start (start + fresh.length))) :
    window (splice items start fresh) first len = window items first len := by
  refine List.ext_getElem? fun i => ?_
  rw [getElem?_window, getElem?_window, getElem?_splice h]
  by_cases hi : i < len
  · have hout : first + i ∉ Finset.Ico start (start + fresh.length) :=
      Finset.disjoint_left.mp hdisjoint (Finset.mem_Ico.mpr ⟨by omega, by omega⟩)
    rw [if_pos hi, if_pos hi, if_neg (fun hin => hout (Finset.mem_Ico.mpr hin))]
  · rw [if_neg hi, if_neg hi]

end Library
