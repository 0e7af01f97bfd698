/-
  Timely/Library/Since.lean
  =========================
  **What has been so since something happened.**

  The past-time operator on finite histories: some label met `P`, and all labels
  after it have met `Q`.  It is decided label by label at the end of the history,
  and where it ceases to hold there is a first label to blame.
-/
import Mathlib.Data.List.Induction

namespace Library

variable {Label : Type*} {P Q : Label → Prop} {labels more : List Label} {label : Label}

/-- Some label has met `P`, and every label since has met `Q`. -/
def Since (P Q : Label → Prop) (labels : List Label) : Prop :=
  ∃ earlier label later, labels = earlier ++ label :: later ∧ P label ∧ ∀ other ∈ later, Q other

theorem not_since_nil : ¬ Since P Q [] := by
  rintro ⟨earlier, label, later, hsplit, -, -⟩
  exact absurd hsplit.symm (by simp)

theorem since_snoc : Since P Q (labels ++ [label]) ↔ P label ∨ Q label ∧ Since P Q labels := by
  constructor
  · rintro ⟨earlier, first, later, hsplit, hfirst, hlater⟩
    rcases later.eq_nil_or_concat with rfl | ⟨front, last, rfl⟩
    · obtain ⟨-, hlabel⟩ := List.append_inj' hsplit rfl
      cases hlabel
      exact Or.inl hfirst
    · rw [List.concat_eq_append] at hsplit hlater
      rw [← List.cons_append, ← List.append_assoc] at hsplit
      obtain ⟨rfl, hlabel⟩ := List.append_inj' hsplit rfl
      cases hlabel
      exact Or.inr ⟨hlater label (by simp), earlier, first, front, rfl, hfirst,
        fun other hother => hlater other (by simp [hother])⟩
  · rintro (hnow | ⟨hkept, earlier, first, later, rfl, hfirst, hlater⟩)
    · exact ⟨labels, label, [], rfl, hnow, fun _ hother => absurd hother List.not_mem_nil⟩
    · refine ⟨earlier, first, later ++ [label], by simp, hfirst, ?_⟩
      intro other hother
      rcases List.mem_append.mp hother with hold | hnew
      · exact hlater other hold
      · rwa [List.mem_singleton.mp hnew]

theorem Since.append (h : Since P Q labels) (hmore : ∀ other ∈ more, Q other) :
    Since P Q (labels ++ more) := by
  obtain ⟨earlier, first, later, rfl, hfirst, hlater⟩ := h
  refine ⟨earlier, first, later ++ more, by simp, hfirst, ?_⟩
  intro other hother
  rcases List.mem_append.mp hother with hold | hnew
  · exact hlater other hold
  · exact hmore other hnew

/-- Among labels of which some does not meet `Q` there is a first one. -/
theorem exists_first (h : ¬ ∀ other ∈ labels, Q other) :
    ∃ front label rest, labels = front ++ label :: rest ∧ ¬ Q label ∧ ∀ other ∈ front, Q other := by
  induction labels with
  | nil => exact absurd (fun _ hother => absurd hother List.not_mem_nil) h
  | cons label labels ih =>
    by_cases hlabel : Q label
    · have hrest : ¬ ∀ other ∈ labels, Q other := by
        intro hall
        refine h fun other hother => ?_
        rcases List.mem_cons.mp hother with rfl | hmem
        · exact hlabel
        · exact hall other hmem
      obtain ⟨front, first, rest, rfl, hfirst, hfront⟩ := ih hrest
      refine ⟨label :: front, first, rest, rfl, hfirst, ?_⟩
      intro other hother
      rcases List.mem_cons.mp hother with rfl | hmem
      · exact hlabel
      · exact hfront other hmem
    · exact ⟨[], label, labels, rfl, hlabel, fun _ hother => absurd hother List.not_mem_nil⟩

end Library
