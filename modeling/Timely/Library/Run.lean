/-
  Timely/Library/Run.lean
  =======================
  **Finite runs of a labelled transition relation.**

  A run records its labels in order, so a property of the state reached may also
  speak about the history.  Runs grow at their end: the rule `invariant` asks
  for one step at a time.
-/
import Mathlib.Data.List.Induction
import Mathlib.Tactic.Common

namespace Library

variable {State Label : Type*}

/-- A finite run, with the labels of its steps. -/
inductive Run (step : State → Label → State → Prop) (start : State) : List Label → State → Prop
  | nil : Run step start [] start
  | snoc {labels : List Label} {middle last : State} {label : Label} :
      Run step start labels middle → step middle label last → Run step start (labels ++ [label]) last

namespace Run

variable {step : State → Label → State → Prop} {start middle last : State}
  {labels more : List Label} {label : Label}

/-- What holds at the start and is kept by every step holds at the end, together with
    the history. -/
theorem invariant {P : List Label → State → Prop} (h : Run step start labels last)
    (hstart : P [] start)
    (hstep : ∀ {labels before label after}, P labels before → step before label after →
      P (labels ++ [label]) after) : P labels last := by
  induction h with
  | nil => exact hstart
  | snoc _ hlast ih => exact hstep ih hlast

theorem append (h : Run step start labels middle) (h' : Run step middle more last) :
    Run step start (labels ++ more) last := by
  induction h' with
  | nil => rwa [List.append_nil]
  | snoc _ hlast ih =>
    rw [← List.append_assoc]
    exact ih.snoc hlast

/-- A run whose last label is known ends with a step of that label. -/
theorem of_snoc (h : Run step start (labels ++ [label]) last) :
    ∃ middle, Run step start labels middle ∧ step middle label last := by
  generalize hall : labels ++ [label] = all at h
  cases h with
  | nil => simp at hall
  | @snoc front middle _ final hrun hlast =>
    obtain ⟨rfl, hlabel⟩ := List.append_inj' hall rfl
    obtain rfl := List.singleton_inj.mp hlabel
    exact ⟨middle, hrun, hlast⟩

theorem of_append (h : Run step start (labels ++ more) last) :
    ∃ middle, Run step start labels middle ∧ Run step middle more last := by
  induction more using List.reverseRecOn generalizing last with
  | nil =>
    rw [List.append_nil] at h
    exact ⟨last, h, nil⟩
  | append_singleton more label ih =>
    rw [← List.append_assoc] at h
    obtain ⟨before, hbefore, hlast⟩ := h.of_snoc
    obtain ⟨middle, hfirst, hsecond⟩ := ih hbefore
    exact ⟨middle, hfirst, hsecond.snoc hlast⟩

theorem eq_of_nil (h : Run step start [] last) : last = start := by
  generalize hall : ([] : List Label) = all at h
  cases h with
  | nil => rfl
  | snoc => exact absurd hall.symm (by simp)

/-- A run whose first label is known starts with a step of that label. -/
theorem of_cons (h : Run step start (label :: labels) last) :
    ∃ middle, step start label middle ∧ Run step middle labels last := by
  obtain ⟨middle, hfirst, hrest⟩ := (show Run step start ([label] ++ labels) last from h).of_append
  obtain ⟨before, hnil, hstep⟩ := (show Run step start ([] ++ [label]) middle from hfirst).of_snoc
  rw [hnil.eq_of_nil] at hstep
  exact ⟨middle, hstep, hrest⟩

theorem mono {step' : State → Label → State → Prop} (h : Run step start labels last)
    (hstep : ∀ {before label after}, step before label after → step' before label after) :
    Run step' start labels last := by
  induction h with
  | nil => exact nil
  | snoc _ hlast ih => exact ih.snoc (hstep hlast)

/-- Where a step has one result, so has a run. -/
theorem unique {last' : State} (hstep : ∀ {before label after after'}, step before label after →
      step before label after' → after = after')
    (h : Run step start labels last) (h' : Run step start labels last') : last = last' := by
  induction h generalizing last' with
  | nil => exact h'.eq_of_nil.symm
  | snoc _ hlast ih =>
    obtain ⟨before, hbefore, hlast'⟩ := h'.of_snoc
    obtain rfl := ih hbefore
    exact hstep hlast hlast'

end Run

/-! ### Folds that may fail -/

section Folds

variable {act : State → Label → Option State} {start last : State} {label : Label}
  {labels : List Label}

/-- A fold that succeeds acts on its first item, and then on the others. -/
theorem foldlM_cons_cases (h : (label :: labels).foldlM act start = some last) :
    ∃ middle, act start label = some middle ∧ labels.foldlM act middle = some last :=
  Option.bind_eq_some_iff.mp ((List.foldlM_cons (m := Option)).symm.trans h)

/-- A fold that succeeds acts on its last item in the end. -/
theorem foldlM_concat_cases (h : (labels ++ [label]).foldlM act start = some last) :
    ∃ middle, labels.foldlM act start = some middle ∧ act middle label = some last := by
  rw [List.foldlM_append] at h
  obtain ⟨middle, hmiddle, hrest⟩ := Option.bind_eq_some_iff.mp h
  obtain ⟨after, hafter, hnil⟩ := foldlM_cons_cases hrest
  cases hnil
  exact ⟨middle, hmiddle, hafter⟩

/-- A fold that succeeds is a run of the labelled steps that its items stand for. -/
theorem Run.of_foldlM_map {Item : Type*} {step : State → Label → State → Prop}
    {act : State → Item → Option State} {name : Item → Label} {items : List Item}
    (hstep : ∀ {before item after}, act before item = some after → step before (name item) after)
    (h : items.foldlM act start = some last) : Run step start (items.map name) last := by
  induction items using List.reverseRecOn generalizing last with
  | nil =>
    rw [List.foldlM_nil] at h
    cases h
    exact Run.nil
  | append_singleton items item ih =>
    obtain ⟨middle, hmiddle, hlast⟩ := foldlM_concat_cases h
    rw [List.map_append]
    exact (ih hmiddle).snoc (hstep hlast)

/-- A fold that succeeds is a run of its steps. -/
theorem Run.of_foldlM (h : labels.foldlM act start = some last) :
    Run (fun before label after => act before label = some after) start labels last := by
  rw [← List.map_id labels]
  exact Run.of_foldlM_map (fun hstep => hstep) h

/-- A fold succeeds where each act does, as far as what has been done before allows. -/
theorem exists_foldlM_history {P : List Label → State → Prop} (hstart : P [] start)
    (hstep : ∀ {before label} (done more : List Label), labels = done ++ label :: more →
      P done before → ∃ after, act before label = some after ∧ P (done ++ [label]) after) :
    ∃ last, labels.foldlM act start = some last ∧ P labels last := by
  have hall : ∀ (more done : List Label) (before : State), labels = done ++ more → P done before →
      ∃ last, more.foldlM act before = some last ∧ P labels last := by
    intro more
    induction more with
    | nil =>
      intro done before hlabels hbefore
      rw [hlabels, List.append_nil]
      exact ⟨before, rfl, hbefore⟩
    | cons label more ih =>
      intro done before hlabels hbefore
      obtain ⟨after, hafter, hdone⟩ := hstep done more hlabels hbefore
      obtain ⟨last, hfold, hlast⟩ := ih (done ++ [label]) after (by simp [hlabels]) hdone
      refine ⟨last, ?_, hlast⟩
      rw [List.foldlM_cons, hafter]
      exact hfold
  exact hall labels [] start rfl hstart

end Folds

/-- A fold that succeeds does the same with acts that do the same where these succeed. -/
theorem foldlM_mono {Value Item : Type*} {act more : Value → Item → Option Value} {items : List Item}
    {start last : Value}
    (hmore : ∀ {before item after}, act before item = some after → more before item = some after)
    (h : items.foldlM act start = some last) : items.foldlM more start = some last := by
  induction items generalizing start with
  | nil => exact h
  | cons item items ih =>
    obtain ⟨middle, hmiddle, hrest⟩ := foldlM_cons_cases h
    rw [List.foldlM_cons, hmore hmiddle]
    exact ih hrest

/-- What each step of a fold keeps holds of its result. -/
theorem foldlM_invariant {Value Item : Type*} {act : Value → Item → Option Value}
    {P : Value → Prop} {items : List Item} {start last : Value}
    (hstart : P start)
    (hstep : ∀ {before item after}, item ∈ items → P before → act before item = some after →
      P after)
    (h : items.foldlM act start = some last) : P last := by
  induction items generalizing start with
  | nil =>
    rw [List.foldlM_nil] at h
    cases h
    exact hstart
  | cons item items ih =>
    obtain ⟨middle, hmiddle, hrest⟩ := foldlM_cons_cases h
    refine ih (hstep (by simp) hstart hmiddle) (fun hmem hbefore hact => ?_) hrest
    exact hstep (List.mem_cons_of_mem _ hmem) hbefore hact

/-- What each step of a fold keeps holds of its result, and what each step shows of its item holds of
    all items. -/
theorem foldlM_invariant_and {Value Item : Type*} {act : Value → Item → Option Value}
    {P : Value → Prop} {Q : Item → Prop} {items : List Item} {start last : Value} (hstart : P start)
    (hstep : ∀ {before item after}, P before → act before item = some after → P after ∧ Q item)
    (h : items.foldlM act start = some last) : P last ∧ ∀ item ∈ items, Q item := by
  induction items generalizing start with
  | nil =>
    rw [List.foldlM_nil] at h
    cases h
    exact ⟨hstart, fun _ hitem => absurd hitem List.not_mem_nil⟩
  | cons item items ih =>
    obtain ⟨middle, hmiddle, hrest⟩ := foldlM_cons_cases h
    obtain ⟨hbetween, hitem⟩ := hstep hstart hmiddle
    obtain ⟨hlast, hitems⟩ := ih hbetween hrest
    exact ⟨hlast, List.forall_mem_cons.mpr ⟨hitem, hitems⟩⟩

/-- In a fold that succeeds every item has been acted on. -/
theorem exists_of_mem_foldlM {Value Item : Type*} {act : Value → Item → Option Value}
    {items : List Item} {start last : Value} (h : items.foldlM act start = some last) :
    ∀ item ∈ items, ∃ before after, act before item = some after := by
  induction items generalizing start with
  | nil => exact fun _ hitem => absurd hitem List.not_mem_nil
  | cons first items ih =>
    obtain ⟨middle, hmiddle, hrest⟩ := foldlM_cons_cases h
    intro item hitem
    rcases List.mem_cons.mp hitem with rfl | hmem
    · exact ⟨start, middle, hmiddle⟩
    · exact ih hrest item hmem

/-- A fold succeeds, and keeps an invariant, if each of its steps does. -/
theorem exists_foldlM {Value Item : Type*} {act : Value → Item → Option Value}
    {P : Value → Prop} {items : List Item} {start : Value} (hstart : P start)
    (hstep : ∀ {before item}, item ∈ items → P before → ∃ after, act before item = some after ∧ P after) :
    ∃ last, items.foldlM act start = some last ∧ P last :=
  exists_foldlM_history (P := fun _ => P) hstart fun done _ hitems hbefore =>
    hstep (hitems ▸ List.mem_append_right done List.mem_cons_self) hbefore

end Library
