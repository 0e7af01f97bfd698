/-
  Timely/Library/Minimal.lean
  ===========================
  **Finite lists of minimal elements.**

  `IsFrontier front present` says that the list `front` holds, without
  repetition, the minimal elements of `present`, and that every element of
  `present` lies above one of them.  For a finite `present` the last part is
  automatic; keeping it in the definition is what lets the rules below compose
  without a well-foundedness argument at each use.
-/
import Mathlib.Order.Minimal
import Mathlib.Data.List.Pairwise
import Mathlib.Data.List.Nodup

namespace Library

variable {T : Type*} [PartialOrder T]

/-- `front` lists the minimal elements of `present`, which lie below all of it. -/
structure IsFrontier (front : List T) (present : T → Prop) : Prop where
  present_of_mem : ∀ time ∈ front, present time
  incomparable : front.Pairwise fun first second => ¬ first ≤ second ∧ ¬ second ≤ first
  covers : ∀ time, present time → ∃ least ∈ front, least ≤ time

namespace IsFrontier

variable {front other : List T} {present wider : T → Prop}

theorem nodup (h : IsFrontier front present) : front.Nodup :=
  h.incomparable.imp fun hpair heq => hpair.1 (le_of_eq heq)

/-- Two comparable elements of a frontier are equal. -/
theorem eq_of_le (h : IsFrontier front present) {first second : T}
    (hfirst : first ∈ front) (hsecond : second ∈ front) (hle : first ≤ second) :
    first = second := by
  by_contra hne
  have hsymm : Std.Symm fun first second : T => ¬ first ≤ second ∧ ¬ second ≤ first :=
    ⟨fun _ _ hpair => hpair.symm⟩
  exact (h.incomparable.forall hfirst hsecond hne).1 hle

/-- The frontier is the set of minimal elements. -/
theorem mem_iff (h : IsFrontier front present) (time : T) :
    time ∈ front ↔ Minimal present time := by
  constructor
  · intro hmem
    refine ⟨h.present_of_mem time hmem, ?_⟩
    intro lower hlower hle
    obtain ⟨least, hleast, hbelow⟩ := h.covers lower hlower
    have heq : least = time := h.eq_of_le hleast hmem (hbelow.trans hle)
    exact heq ▸ hbelow
  · intro hmin
    obtain ⟨least, hleast, hle⟩ := h.covers time hmin.1
    have heq : time = least := hmin.eq_of_ge (h.present_of_mem least hleast) hle
    exact heq ▸ hleast

theorem mem_congr (h : IsFrontier front present) (hother : IsFrontier other present)
    (time : T) : time ∈ front ↔ time ∈ other := by
  rw [h.mem_iff, hother.mem_iff]

theorem congr (h : IsFrontier front present) (hsame : ∀ time, present time ↔ wider time) :
    IsFrontier front wider where
  present_of_mem time hmem := (hsame time).mp (h.present_of_mem time hmem)
  incomparable := h.incomparable
  covers time hwider := h.covers time ((hsame time).mpr hwider)

/-- Adding elements above present ones leaves the frontier as it is. -/
theorem widen (h : IsFrontier front present) (hsub : ∀ time, present time → wider time)
    (habove : ∀ time, wider time → ∃ lower, present lower ∧ lower ≤ time) :
    IsFrontier front wider where
  present_of_mem time hmem := hsub time (h.present_of_mem time hmem)
  incomparable := h.incomparable
  covers time hwider := by
    obtain ⟨lower, hlower, hle⟩ := habove time hwider
    obtain ⟨least, hleast, hbelow⟩ := h.covers lower hlower
    exact ⟨least, hleast, hbelow.trans hle⟩

/-- A frontier is also the one of everything above it. -/
theorem up_closure (h : IsFrontier front present) :
    IsFrontier front fun time => ∃ least ∈ front, least ≤ time where
  present_of_mem time hmem := ⟨time, hmem, le_rfl⟩
  incomparable := h.incomparable
  covers _ habove := habove

end IsFrontier

theorem isFrontier_nil {present : T → Prop} (h : ∀ time, ¬ present time) :
    IsFrontier [] present where
  present_of_mem _ hmem := absurd hmem List.not_mem_nil
  incomparable := List.Pairwise.nil
  covers time hpresent := absurd hpresent (h time)

/-! ### Inserting an element -/

section Insert

variable [DecidableLE T]

/-- Insert an element unless one that is kept lies below it, and drop those above it; the flag
    tells whether it was inserted. -/
def insertMinimal (front : List T) (element : T) : Bool × List T :=
  if front.any (· ≤ element) then (false, front)
  else (true, (front.filter fun other => ¬ element ≤ other) ++ [element])

variable {front : List T} {element other : T}

theorem insertMinimal_cases (front : List T) (element : T) :
    (insertMinimal front element = (false, front) ∧ ∃ least ∈ front, least ≤ element) ∨
    (insertMinimal front element =
        (true, (front.filter fun other => ¬ element ≤ other) ++ [element]) ∧
      ∀ least ∈ front, ¬ least ≤ element) := by
  unfold insertMinimal
  by_cases h : front.any (· ≤ element) = true
  · rw [if_pos h]
    exact Or.inl ⟨rfl, by simpa using h⟩
  · rw [if_neg h]
    exact Or.inr ⟨rfl, by simpa using h⟩

theorem mem_insertMinimal (h : other ∈ (insertMinimal front element).2) :
    other ∈ front ∨ (other = element ∧ (insertMinimal front element).1 = true) := by
  rcases insertMinimal_cases front element with ⟨heq, _⟩ | ⟨heq, _⟩
  · rw [heq] at h
    exact Or.inl h
  · rw [heq] at h ⊢
    rcases List.mem_append.mp h with hmem | hmem
    · exact Or.inl (List.mem_of_mem_filter hmem)
    · exact Or.inr ⟨List.mem_singleton.mp hmem, rfl⟩

/-- What is covered stays covered, and the inserted element is covered. -/
theorem covers_insertMinimal {time : T} :
    (∃ least ∈ (insertMinimal front element).2, least ≤ time) ↔
      (∃ least ∈ front, least ≤ time) ∨ element ≤ time := by
  rcases insertMinimal_cases front element with ⟨heq, least, hleast, hle⟩ | ⟨heq, _⟩
  · rw [heq]
    refine ⟨Or.inl, ?_⟩
    rintro (hcovered | habove)
    · exact hcovered
    · exact ⟨least, hleast, hle.trans habove⟩
  · rw [heq]
    constructor
    · rintro ⟨least, hleast, hle⟩
      rcases List.mem_append.mp hleast with hmem | hmem
      · exact Or.inl ⟨least, List.mem_of_mem_filter hmem, hle⟩
      · rw [List.mem_singleton] at hmem
        exact Or.inr (hmem ▸ hle)
    · rintro (⟨least, hleast, hle⟩ | habove)
      · by_cases hdropped : element ≤ least
        · exact ⟨element, by simp, hdropped.trans hle⟩
        · exact ⟨least, by simp [hleast, hdropped], hle⟩
      · exact ⟨element, by simp, habove⟩

theorem pairwise_insertMinimal
    (h : front.Pairwise fun first second => ¬ first ≤ second ∧ ¬ second ≤ first) :
    (insertMinimal front element).2.Pairwise
      fun first second => ¬ first ≤ second ∧ ¬ second ≤ first := by
  rcases insertMinimal_cases front element with ⟨heq, _⟩ | ⟨heq, hnone⟩
  · rw [heq]
    exact h
  · rw [heq]
    refine List.pairwise_append.mpr ⟨h.filter _, List.pairwise_singleton _ _, ?_⟩
    intro least hleast last hlast
    rw [List.mem_singleton] at hlast
    subst hlast
    obtain ⟨hmem, hkept⟩ := List.mem_filter.mp hleast
    exact ⟨hnone least hmem, by simpa using hkept⟩

/-- The minimal elements with one more element. -/
theorem IsFrontier.insertMinimal {present : T → Prop} (h : IsFrontier front present) (element : T) :
    IsFrontier (insertMinimal front element).2 fun time => present time ∨ time = element where
  present_of_mem time hmem := by
    rcases mem_insertMinimal hmem with hold | ⟨hnew, _⟩
    · exact Or.inl (h.present_of_mem time hold)
    · exact Or.inr hnew
  incomparable := pairwise_insertMinimal h.incomparable
  covers time htime := by
    rw [covers_insertMinimal]
    rcases htime with hold | hnew
    · exact Or.inl (h.covers time hold)
    · exact Or.inr (le_of_eq hnew.symm)

end Insert

/-! ### Building a frontier by a left-to-right scan -/

section Scan

variable [DecidableLE T]

/-- Append each element that no element kept so far lies below. -/
def scanMinimal (front : List T) (times : List T) : List T :=
  times.foldl (fun kept time => if kept.any (· ≤ time) then kept else kept ++ [time]) front

theorem scanMinimal_cons (front : List T) (time : T) (times : List T) :
    scanMinimal front (time :: times) =
      scanMinimal (if front.any (· ≤ time) then front else front ++ [time]) times := rfl

/-- A scan in an order that extends `≤` never has to displace what it has kept, so
    it keeps exactly the minimal elements. -/
theorem isFrontier_scanMinimal {front times : List T} {present : T → Prop}
    (h : IsFrontier front present)
    (hsorted : times.Pairwise fun first second => ¬ second ≤ first)
    (hafter : ∀ kept ∈ front, ∀ time ∈ times, ¬ time ≤ kept) :
    IsFrontier (scanMinimal front times) fun time => present time ∨ time ∈ times := by
  induction times generalizing front present with
  | nil => exact h.congr fun time => by simp
  | cons time times ih =>
    rw [List.pairwise_cons] at hsorted
    rw [scanMinimal_cons]
    by_cases hdom : front.any (· ≤ time)
    · rw [if_pos hdom]
      have hlower : ∃ kept ∈ front, kept ≤ time := by simpa using hdom
      have hnext : IsFrontier front fun other => present other ∨ other = time := by
        refine h.widen (fun other hother => Or.inl hother) ?_
        rintro other (hother | rfl)
        · exact ⟨other, hother, le_rfl⟩
        · obtain ⟨kept, hkept, hle⟩ := hlower
          exact ⟨kept, h.present_of_mem kept hkept, hle⟩
      refine (ih hnext hsorted.2 ?_).congr fun other => by simp [or_assoc]
      intro kept hkept other hother
      exact hafter kept hkept other (by simp [hother])
    · rw [if_neg hdom]
      have hnone : ∀ kept ∈ front, ¬ kept ≤ time := by simpa using hdom
      have hnext : IsFrontier (front ++ [time]) fun other => present other ∨ other = time := by
        refine ⟨?_, ?_, ?_⟩
        · intro other hother
          rcases List.mem_append.mp hother with hmem | hmem
          · exact Or.inl (h.present_of_mem other hmem)
          · exact Or.inr (List.mem_singleton.mp hmem)
        · refine List.pairwise_append.mpr ⟨h.incomparable, List.pairwise_singleton _ _, ?_⟩
          intro kept hkept other hother
          rw [List.mem_singleton] at hother
          subst hother
          exact ⟨hnone kept hkept, hafter kept hkept _ (by simp)⟩
        · rintro other (hother | rfl)
          · obtain ⟨least, hleast, hle⟩ := h.covers other hother
            exact ⟨least, by simp [hleast], hle⟩
          · exact ⟨other, by simp, le_rfl⟩
      refine (ih hnext hsorted.2 ?_).congr fun other => by simp [or_assoc]
      intro kept hkept other hother
      rcases List.mem_append.mp hkept with hmem | hmem
      · exact hafter kept hmem other (by simp [hother])
      · rw [List.mem_singleton] at hmem
        subst hmem
        exact hsorted.1 other hother

end Scan

end Library
