/-
  Timely/Library/Pipeline.lean
  ============================
  **Flows of items through first-in first-out places.**

  Items wait in places, and move in blocks from the front of one place to the
  ends of the next ones.  Each item belongs to a flow, and each flow has a route.
  Places are shared between flows, and a flow's items keep their order: what has
  entered is, in order, what the places of the route hold.
-/
import Mathlib.Data.List.Nodup
import Mathlib.Tactic.Common

set_option linter.unusedSectionVars false

namespace Library

variable {Place Item Flow : Type*} [DecidableEq Place] [DecidableEq Flow]

/-- The ways through the places.  A route is listed from its end to its entry. -/
structure Routing (Place Item Flow : Type*) where
  flow : Item → Flow
  route : Flow → List Place
  /-- The place behind a place. -/
  next : Flow → Place → Place
  nodup : ∀ φ, (route φ).Nodup
  /-- Other than its last place, a place on a route has the next one in front of it. -/
  next_mem : ∀ {φ place}, place ∈ route φ → (route φ).head? ≠ some place →
    ∃ front back, route φ = front ++ next φ place :: place :: back

namespace Routing

variable (R : Routing Place Item Flow) {src place : Place} {φ : Flow} {items rest : List Item}
  {contents : Place → List Item}

/-- Takes items off a place, and adds each to the place behind. -/
def move (src : Place) (items rest : List Item) (contents : Place → List Item) :
    Place → List Item :=
  fun place => if place = src then rest
    else contents place ++ items.filter (fun item => R.next (R.flow item) src = place)

/-- An item enters. -/
def enter (place : Place) (item : Item) (contents : Place → List Item) : Place → List Item :=
  fun place' => if place' = place then contents place' ++ [item] else contents place'

/-- Items are on the routes of their flows. -/
def OnRoute (contents : Place → List Item) : Prop :=
  ∀ {place item}, item ∈ contents place → place ∈ R.route (R.flow item)

/-- The items of one flow in these places, the oldest first. -/
def along (places : List Place) (contents : Place → List Item) (φ : Flow) : List Item :=
  places.flatMap fun place => (contents place).filter (R.flow · = φ)

/-- The items of a flow, wherever they are. -/
def all (contents : Place → List Item) (φ : Flow) : List Item :=
  R.along (R.route φ) contents φ

/-! ### What a move does to each place -/

@[simp] theorem move_self : R.move src items rest contents src = rest := if_pos rfl

/-- Where everything goes to. -/
theorem move_next (hne : place ≠ src)
    (hnext : ∀ item ∈ items, R.next (R.flow item) src = place) :
    R.move src items rest contents place = contents place ++ items := by
  have hfilter : items.filter (fun item => R.next (R.flow item) src = place) = items :=
    List.filter_eq_self.mpr fun item hitem => decide_eq_true (hnext item hitem)
  rw [move, if_neg hne, hfilter]

/-- Where nothing goes to. -/
theorem move_other (hne : place ≠ src)
    (hnext : ∀ item ∈ items, R.next (R.flow item) src ≠ place) :
    R.move src items rest contents place = contents place := by
  have hfilter : items.filter (fun item => R.next (R.flow item) src = place) = [] :=
    List.filter_eq_nil_iff.mpr fun item hitem => by simpa using hnext item hitem
  rw [move, if_neg hne, hfilter, List.append_nil]

/-! ### Flows along a list of places -/

@[simp] theorem along_cons (places : List Place) :
    R.along (place :: places) contents φ
      = (contents place).filter (R.flow · = φ) ++ R.along places contents φ :=
  List.flatMap_cons

@[simp] theorem along_append (front back : List Place) :
    R.along (front ++ back) contents φ = R.along front contents φ ++ R.along back contents φ :=
  List.flatMap_append

theorem along_congr {places : List Place} {contents contents' : Place → List Item}
    (h : ∀ place ∈ places,
      (contents place).filter (R.flow · = φ) = (contents' place).filter (R.flow · = φ)) :
    R.along places contents φ = R.along places contents' φ := by
  induction places with
  | nil => rfl
  | cons place places ih =>
    rw [along_cons, along_cons, h place List.mem_cons_self,
      ih fun place' hplace' => h place' (List.mem_cons_of_mem _ hplace')]

/-- What is moved elsewhere is not seen. -/
theorem filter_move_of_ne (hne : place ≠ src) (hnext : R.next φ src ≠ place) :
    (R.move src items rest contents place).filter (R.flow · = φ)
      = (contents place).filter (R.flow · = φ) := by
  have hnone : (items.filter fun item => R.next (R.flow item) src = place).filter
      (R.flow · = φ) = [] := by
    refine List.filter_eq_nil_iff.mpr fun item hitem hflow => hnext ?_
    rw [← of_decide_eq_true hflow]
    exact of_decide_eq_true (List.mem_filter.mp hitem).2
  rw [move, if_neg hne, List.filter_append, hnone, List.append_nil]

/-- What is moved here is added. -/
theorem filter_move_next (hne : R.next φ src ≠ src) :
    (R.move src items rest contents (R.next φ src)).filter (R.flow · = φ)
      = (contents (R.next φ src)).filter (R.flow · = φ) ++ items.filter (R.flow · = φ) := by
  have hsame : (items.filter fun item => R.next (R.flow item) src = R.next φ src).filter
      (R.flow · = φ) = items.filter (R.flow · = φ) := by
    rw [List.filter_filter]
    refine List.filter_congr fun item _ => ?_
    by_cases hflow : R.flow item = φ
    · simp [hflow]
    · simp [hflow]
  rw [move, if_neg hne, List.filter_append, hsame]

/-! ### Moves and entries keep the flows -/

variable {R}

theorem OnRoute.move (h : R.OnRoute contents) (hsrc : contents src = items ++ rest)
    (hlast : ∀ item ∈ items, (R.route (R.flow item)).head? ≠ some src) :
    R.OnRoute (R.move src items rest contents) := by
  intro place item hitem
  by_cases hplace : place = src
  · subst hplace
    rw [move_self] at hitem
    exact h (hsrc ▸ List.mem_append_right _ hitem)
  · rw [Routing.move, if_neg hplace, List.mem_append, List.mem_filter] at hitem
    rcases hitem with hitem | ⟨hitem, hnext⟩
    · exact h hitem
    · have hmem : src ∈ R.route (R.flow item) := h (hsrc ▸ List.mem_append_left _ hitem)
      obtain ⟨front, back, hroute⟩ := R.next_mem hmem (hlast item hitem)
      rw [hroute, ← of_decide_eq_true hnext]
      simp

/-- A move keeps every flow. -/
theorem all_move (h : R.OnRoute contents) (hsrc : contents src = items ++ rest)
    (hlast : ∀ item ∈ items, (R.route (R.flow item)).head? ≠ some src) (φ : Flow) :
    R.all (R.move src items rest contents) φ = R.all contents φ := by
  by_cases hflow : ∃ item ∈ items, R.flow item = φ
  · -- the items of the flow all go to one place
    obtain ⟨item, hitem, rfl⟩ := hflow
    have hmem : src ∈ R.route (R.flow item) := h (hsrc ▸ List.mem_append_left _ hitem)
    obtain ⟨front, back, hroute⟩ := R.next_mem hmem (hlast item hitem)
    have hnodup := R.nodup (R.flow item)
    rw [hroute, List.nodup_append] at hnodup
    obtain ⟨-, hback, hfront⟩ := hnodup
    rw [List.nodup_cons, List.nodup_cons] at hback
    have hne : R.next (R.flow item) src ≠ src := by
      intro heq
      apply hback.1
      rw [heq]
      exact List.mem_cons_self
    have hsame : ∀ places : List Place, src ∉ places → R.next (R.flow item) src ∉ places →
        R.along places (R.move src items rest contents) (R.flow item)
          = R.along places contents (R.flow item) := by
      intro places hout hout'
      refine along_congr R fun place hplace => R.filter_move_of_ne ?_ ?_
      · exact fun heq => hout (heq ▸ hplace)
      · exact fun heq => hout' (heq ▸ hplace)
    rw [all, all, hroute, along_append, along_append, along_cons, along_cons, along_cons,
      along_cons, hsame front, hsame back, R.filter_move_next hne, move_self, hsrc,
      List.filter_append]
    · simp only [List.append_assoc]
    · exact hback.2.1
    · exact fun hnext => hback.1 (List.mem_cons_of_mem _ hnext)
    · exact fun hout => hfront _ hout _ (List.mem_cons_of_mem _ List.mem_cons_self) rfl
    · exact fun hout => hfront _ hout _ List.mem_cons_self rfl
  · -- none of the items are of the flow
    have hnone : ∀ kept : Item → Bool,
        (items.filter kept).filter (R.flow · = φ) = [] := by
      refine fun kept => List.filter_eq_nil_iff.mpr fun item hitem heq => hflow ⟨item, ?_⟩
      exact ⟨(List.mem_filter.mp hitem).1, of_decide_eq_true heq⟩
    have hitems : items.filter (R.flow · = φ) = [] :=
      List.filter_eq_nil_iff.mpr fun item hitem heq => hflow ⟨item, hitem, of_decide_eq_true heq⟩
    refine along_congr R fun place _ => ?_
    by_cases hplace : place = src
    · rw [hplace, move_self, hsrc, List.filter_append, hitems, List.nil_append]
    · rw [Routing.move, if_neg hplace, List.filter_append, hnone, List.append_nil]

variable {item : Item}

theorem OnRoute.enter (h : R.OnRoute contents) (hentry : place ∈ R.route (R.flow item)) :
    R.OnRoute (Routing.enter place item contents) := by
  intro place' item' hitem
  by_cases hplace : place' = place
  · rw [Routing.enter, if_pos hplace, List.mem_append, List.mem_singleton] at hitem
    rcases hitem with hitem | rfl
    · exact h hitem
    · rw [hplace]
      exact hentry
  · rw [Routing.enter, if_neg hplace] at hitem
    exact h hitem

/-- An entry is added to its flow, and to no other. -/
theorem all_enter (hentry : (R.route (R.flow item)).getLast? = some place) (φ : Flow) :
    R.all (Routing.enter place item contents) φ
      = R.all contents φ ++ if R.flow item = φ then [item] else [] := by
  by_cases hflow : R.flow item = φ
  · subst hflow
    obtain ⟨front, hroute⟩ := List.getLast?_eq_some_iff.mp hentry
    have hnodup := R.nodup (R.flow item)
    rw [hroute, List.nodup_append] at hnodup
    have hout : place ∉ front := fun hmem => hnodup.2.2 _ hmem _ List.mem_cons_self rfl
    have hfront : R.along front (Routing.enter place item contents) (R.flow item)
        = R.along front contents (R.flow item) := by
      refine along_congr R fun place' hplace' => ?_
      have hne : place' ≠ place := fun heq => hout (heq ▸ hplace')
      rw [Routing.enter, if_neg hne]
    rw [all, all, hroute, along_append, along_append, hfront, if_pos rfl]
    simp [along, Routing.enter]
  · rw [if_neg hflow, List.append_nil]
    refine along_congr R fun place' _ => ?_
    by_cases hplace : place' = place
    · rw [Routing.enter, if_pos hplace, List.filter_append,
        List.filter_cons_of_neg (by simpa using hflow), List.filter_nil, List.append_nil]
    · rw [Routing.enter, if_neg hplace]

/-- What has come to the end of the route is the beginning of the flow. -/
theorem all_eq_append {last : Place} {before : List Place} (hroute : R.route φ = last :: before) :
    R.all contents φ
      = (contents last).filter (R.flow · = φ) ++ R.along before contents φ := by
  rw [all, hroute, along_cons]

theorem along_eq_nil {places : List Place} (h : ∀ place ∈ places, contents place = []) :
    R.along places contents φ = [] := by
  refine List.flatMap_eq_nil_iff.mpr fun place hplace => ?_
  rw [h place hplace]
  rfl

end Routing

end Library
