/-
  Timely/WrapperWakes.lean
  ========================
  **Frontier changes at ghosts.**

  A frontier change at a ghost goes to its wrapper, and the wrapper has to be
  activated.  Every change arrives, but only the first change at a ghost in one
  call activates a wrapper, and not even that one if the ghost asks to be
  notified itself.
-/
import Timely.SubgraphFrame

set_option linter.unusedSectionVars false

namespace Timely

open Library

namespace Subgraph

variable {O S TOuter TInner : Type}
  [PartialOrder TOuter] [DecidableLE TOuter] [DecidableEq TOuter] [Ord TOuter]
  [LinearExtension TOuter]
  [PartialOrder TInner] [DecidableLE TInner] [DecidableEq TInner] [Ord TInner]
  [LinearExtension TInner] [Refines TOuter TInner]

/-! ### What children have been told -/

/-- The frontier changes that an input of a child has not yet drained. -/
def input_frontier (subgraph : Subgraph O S TOuter TInner) (index port : ℕ) : ChangeBatch TInner :=
  ((subgraph.children[index]?).bind fun child => child.shared_progress.frontiers[port]?).getD
    ChangeBatch.new

/-- The frontier changes at an input of a ghost that a wrapper has not yet drained. -/
def wrapper_frontier (subgraph : Subgraph O S TOuter TInner) (wrapper ghost port : ℕ) :
    ChangeBatch TInner :=
  ((subgraph.children[wrapper]?).bind fun child =>
    (child.shared_progress.wrapper_frontiers.lookup ghost).bind fun frontiers => frontiers[port]?).getD
      ChangeBatch.new

/-- The child asks to be scheduled for frontier changes. -/
def notified (subgraph : Subgraph O S TOuter TInner) (index : ℕ) : Bool :=
  (subgraph.children[index]?).any PerOperatorState.notify

/-- The wrapper that a change is for, if it is at a ghost. -/
def wrapper_of (subgraph : Subgraph O S TOuter TInner) (change : (Location × TInner) × ℤ) : Option ℕ :=
  match change.1.1.port with
  | .target _ => subgraph.ghost_wrapper.lookup change.1.1.node
  | .source _ => none

theorem Framed.notified {subgraph after : Subgraph O S TOuter TInner} (h : Framed subgraph after)
    (index : ℕ) : after.notified index = subgraph.notified index := by
  have hview : ∀ state : Subgraph O S TOuter TInner, state.notified index =
      ((state.children.map PerOperatorState.fixed)[index]?).any PerOperatorState.notify := by
    intro state
    unfold Subgraph.notified
    rw [List.getElem?_map]
    cases state.children[index]? with
    | none => rfl
    | some child => rfl
  rw [hview, hview, h.children]

theorem value_update_at {K : Type} [Ord K] [DecidableEq K] [Std.TransOrd K] [Std.LawfulEqOrd K]
    {batches after : List (ChangeBatch K)} {index : ℕ} {item : K} {delta : ℤ}
    (h : update_at batches index item delta = some after) (port : ℕ) (key : K) :
    ((after[port]?).getD ChangeBatch.new).value key =
      ((batches[port]?).getD ChangeBatch.new).value key +
        if port = index ∧ item = key then delta else 0 := by
  unfold update_at at h
  split at h
  case isFalse => cases h
  case isTrue hindex =>
    cases h
    by_cases hport : port = index
    · subst hport
      rw [List.getElem?_modify_eq, List.getElem?_eq_getElem hindex]
      simp
    · rw [List.getElem?_modify_ne _ _ (Ne.symm hport)]
      simp [hport]

/-- Delivering one change at a target. -/
structure DeliveredOne (node port : ℕ) (time : TInner) (diff : ℤ)
    (state next : Subgraph O S TOuter TInner × Bool) : Prop where
  framed : Framed state.1 next.1
  flag : next.2 = (state.2 || (state.1.ghost_wrapper.lookup node).isSome)
  frontier : ∀ index other key, (next.1.input_frontier index other).value key =
    (state.1.input_frontier index other).value key +
      if state.1.ghost_wrapper.lookup index = none ∧ (index, other) = (node, port) ∧ time = key
        then diff else 0
  wrapper : ∀ index ghost other key, (next.1.wrapper_frontier index ghost other).value key =
    (state.1.wrapper_frontier index ghost other).value key +
      if state.1.ghost_wrapper.lookup ghost = some index ∧ (ghost, other) = (node, port) ∧ time = key
        then diff else 0
  active : ∀ index, index ∈ next.1.temp_active ↔ index ∈ state.1.temp_active ∨
    (index = node ∧ state.1.notified node = true) ∨
    (state.1.ghost_wrapper.lookup node = some index ∧ state.1.notified node = false ∧ state.2 = false)

theorem deliveredOne_of_deliver_change {state next : Subgraph O S TOuter TInner × Bool}
    {node port : ℕ} {time : TInner} {diff : ℤ}
    (h : deliver_change state ((Location.new_target node port, time), diff) = some next) :
    DeliveredOne node port time diff state next := by
  have hframed := framed_deliver_change h
  simp only [deliver_change, Location.new_target] at h
  split at h
  case h_1 => cases h
  case h_2 child hchild =>
    have hnotified : state.1.notified node = child.notify := by
      unfold notified
      rw [hchild]
      rfl
    generalize hactive : (if child.notify then activate state.1.temp_active node
      else state.1.temp_active) = notified_active at h
    have hmember : ∀ index, index ∈ notified_active ↔ index ∈ state.1.temp_active ∨
        (index = node ∧ state.1.notified node = true) := by
      intro index
      rw [← hactive, hnotified]
      cases child.notify with
      | true =>
        rw [if_pos rfl, mem_activate]
        simp [or_comm]
      | false => simp
    split at h
    case h_1 wrapper hwrapper =>
      -- a ghost: the change is for its wrapper
      obtain ⟨changed, hmodified, rfl⟩ := Option.map_eq_some_iff.mp h
      obtain ⟨holder, replaced, hholder, hpush, rfl⟩ := modify_child_cases hmodified
      unfold push_wrapper_frontier at hpush
      split at hpush
      case h_1 => cases hpush
      case h_2 frontiers hfrontiers =>
        obtain ⟨updated, hupdated, rfl⟩ := Option.map_eq_some_iff.mp hpush
        obtain ⟨hlength, rfl⟩ := List.getElem?_eq_some_iff.mp hholder
        refine ⟨hframed, ?_, ?_, ?_, ?_⟩
        · rw [hwrapper]
          simp
        · intro index other key
          have hnone : ¬ (state.1.ghost_wrapper.lookup index = none ∧ (index, other) = (node, port) ∧
              time = key) := by
            rintro ⟨hnone, hkey, -⟩
            rw [(Prod.mk.inj hkey).1, hwrapper] at hnone
            cases hnone
          rw [if_neg hnone, add_zero]
          unfold input_frontier
          simp only [List.getElem?_set]
          by_cases hindex : wrapper = index
          · subst hindex
            rw [if_pos rfl, if_pos hlength, List.getElem?_eq_getElem hlength]
            rfl
          · rw [if_neg hindex]
        · intro index ghost other key
          unfold wrapper_frontier
          simp only [List.getElem?_set]
          by_cases hindex : wrapper = index
          · subst hindex
            rw [if_pos rfl, if_pos hlength, List.getElem?_eq_getElem hlength, Option.bind_some,
              Option.bind_some]
            by_cases hghost : ghost = node
            · subst hghost
              have hvalue := value_update_at hupdated other key
              rw [AList.lookup_insert, hfrontiers, Option.bind_some, Option.bind_some, hvalue, hwrapper]
              simp
            · rw [AList.lookup_insert_ne hghost]
              simp [hghost]
          · have hne : ¬ (state.1.ghost_wrapper.lookup ghost = some index ∧ (ghost, other) = (node, port) ∧
                time = key) := by
              rintro ⟨hlookup, hkey, -⟩
              rw [(Prod.mk.inj hkey).1, hwrapper] at hlookup
              exact hindex (Option.some.inj hlookup)
            rw [if_neg hindex, if_neg hne, add_zero]
        · intro index
          simp only
          rw [hnotified] at hmember ⊢
          rw [hwrapper]
          cases hflag : state.2 with
          | true => simp [hmember]
          | false =>
            cases hnotify : child.notify with
            | true =>
              rw [hnotify] at hmember
              simp [hmember]
            | false =>
              rw [hnotify] at hmember
              simp only [Bool.or_self, Bool.false_eq_true, if_false, mem_activate, hmember]
              simp [or_comm, eq_comm]
    case h_2 hwrapper =>
      obtain ⟨changed, hmodified, rfl⟩ := Option.map_eq_some_iff.mp h
      obtain ⟨holder, replaced, hholder, hpush, rfl⟩ := modify_child_cases hmodified
      obtain ⟨updated, hupdated, rfl⟩ := Option.map_eq_some_iff.mp hpush
      obtain ⟨hlength, rfl⟩ := List.getElem?_eq_some_iff.mp hholder
      refine ⟨hframed, ?_, ?_, ?_, ?_⟩
      · rw [hwrapper]
        simp
      · intro index other key
        unfold input_frontier
        simp only [List.getElem?_set]
        by_cases hindex : node = index
        · subst hindex
          have hvalue := value_update_at hupdated other key
          rw [if_pos rfl, if_pos hlength, List.getElem?_eq_getElem hlength, Option.bind_some,
            Option.bind_some, hvalue, hwrapper]
          simp
        · rw [if_neg hindex]
          simp [Ne.symm hindex]
      · intro index ghost other key
        have hnone : ¬ (state.1.ghost_wrapper.lookup ghost = some index ∧ (ghost, other) = (node, port) ∧
            time = key) := by
          rintro ⟨hlookup, hkey, -⟩
          rw [(Prod.mk.inj hkey).1, hwrapper] at hlookup
          cases hlookup
        rw [if_neg hnone, add_zero]
        unfold wrapper_frontier
        simp only [List.getElem?_set]
        by_cases hindex : node = index
        · subst hindex
          rw [if_pos rfl, if_pos hlength, List.getElem?_eq_getElem hlength]
          rfl
        · rw [if_neg hindex]
      · intro index
        rw [hwrapper]
        simp [hmember]

/-! ### Delivering a list of changes -/

/-- The change is at a target of a ghost. -/
def at_ghost (subgraph : Subgraph O S TOuter TInner) (change : (Location × TInner) × ℤ) : Bool :=
  (subgraph.wrapper_of change).isSome

/-- Delivering changes from a state whose flag is down.  Of all changes at ghosts only the first
    one activates a wrapper. -/
structure DeliveredAll (changes : List ((Location × TInner) × ℤ)) (start : Subgraph O S TOuter TInner)
    (state : Subgraph O S TOuter TInner × Bool) : Prop where
  framed : Framed start state.1
  flag : state.2 = changes.any start.at_ghost
  frontier : ∀ index port key, (state.1.input_frontier index port).value key =
    (start.input_frontier index port).value key +
      if start.ghost_wrapper.lookup index = none then
        tally changes (Location.new_target index port, key) else 0
  wrapper : ∀ index ghost port key, (state.1.wrapper_frontier index ghost port).value key =
    (start.wrapper_frontier index ghost port).value key +
      if start.ghost_wrapper.lookup ghost = some index then
        tally changes (Location.new_target ghost port, key) else 0
  active : ∀ index, index ∈ state.1.temp_active ↔ index ∈ start.temp_active ∨
    (start.notified index = true ∧ ∃ change ∈ changes, ∃ port, change.1.1 = Location.new_target index port) ∨
    ∃ first, changes.find? start.at_ghost = some first ∧ start.wrapper_of first = some index ∧
      start.notified first.1.1.node = false

theorem DeliveredAll.refl (start : Subgraph O S TOuter TInner) : DeliveredAll [] start (start, false) where
  framed := Framed.refl start
  flag := rfl
  frontier index port key := by simp
  wrapper index ghost port key := by simp
  active index := by simp

theorem DeliveredAll.snoc {changes : List ((Location × TInner) × ℤ)} {change : (Location × TInner) × ℤ}
    {start : Subgraph O S TOuter TInner} {state next : Subgraph O S TOuter TInner × Bool}
    (h : DeliveredAll changes start state) (hdeliver : deliver_change state change = some next) :
    DeliveredAll (changes ++ [change]) start next := by
  obtain ⟨⟨⟨node, port⟩, time⟩, diff⟩ := change
  cases port with
  | source port =>
    -- sources are not actionable
    cases hdeliver
    have hnot : start.at_ghost ((⟨node, .source port⟩, time), diff) = false := rfl
    refine ⟨h.framed, ?_, ?_, ?_, ?_⟩
    · rw [h.flag, List.any_append, List.any_cons, hnot]
      simp
    · intro index other key
      rw [h.frontier, tally_append]
      simp [Location.new_target]
    · intro index ghost other key
      rw [h.wrapper, tally_append]
      simp [Location.new_target]
    · intro index
      rw [h.active, List.find?_append, List.find?_cons_of_neg (by simp [hnot])]
      simp [Location.new_target]
  | target port =>
    have hone : DeliveredOne node port time diff state next := deliveredOne_of_deliver_change hdeliver
    have hlookup : state.1.ghost_wrapper = start.ghost_wrapper := h.framed.ghost_wrapper
    have hghost : start.at_ghost ((⟨node, .target port⟩, time), diff) =
        (start.ghost_wrapper.lookup node).isSome := rfl
    refine ⟨h.framed.trans hone.framed, ?_, ?_, ?_, ?_⟩
    · rw [hone.flag, h.flag, hlookup, List.any_append, List.any_cons, hghost]
      simp
    · intro index other key
      rw [hone.frontier, h.frontier, hlookup, tally_append, tally_cons, tally_nil, add_assoc]
      congr 1
      by_cases hindex : start.ghost_wrapper.lookup index = none
      · simp only [hindex, if_true, true_and, add_zero, add_right_inj]
        apply if_congr _ rfl rfl
        simp [Location.new_target]
        grind
      · simp [hindex]
    · intro index ghost other key
      rw [hone.wrapper, h.wrapper, hlookup, tally_append, tally_cons, tally_nil, add_assoc]
      congr 1
      by_cases hindex : start.ghost_wrapper.lookup ghost = some index
      · simp only [hindex, if_true, true_and, add_zero, add_right_inj]
        apply if_congr _ rfl rfl
        simp [Location.new_target]
        grind
      · simp [hindex]
    · intro index
      have htargets : (∃ change ∈ changes ++ [((⟨node, .target port⟩, time), diff)], ∃ other,
          change.1.1 = Location.new_target index other) ↔
          (∃ change ∈ changes, ∃ other, change.1.1 = Location.new_target index other) ∨ index = node := by
        simp only [List.mem_append, List.mem_singleton, or_and_right, exists_or, exists_eq_left]
        refine or_congr Iff.rfl ⟨?_, ?_⟩
        · rintro ⟨other, heq⟩
          exact (congrArg Location.node heq).symm
        · rintro rfl
          exact ⟨port, rfl⟩
      have hwrapper : start.wrapper_of ((⟨node, .target port⟩, time), diff) =
          start.ghost_wrapper.lookup node := rfl
      rw [hone.active, h.active, hlookup, h.framed.notified, h.flag, htargets, List.find?_append]
      cases hseen : changes.any start.at_ghost with
      | true =>
        -- an earlier change has set the flag
        obtain ⟨earlier, hmember, hearlier⟩ := List.any_eq_true.mp hseen
        obtain ⟨first, hfirst⟩ := Option.isSome_iff_exists.mp
          (List.find?_isSome.mpr ⟨earlier, hmember, hearlier⟩)
        rw [hfirst, Option.some_or]
        grind
      | false =>
        have hnone : changes.find? start.at_ghost = none := by
          rw [List.find?_eq_none]
          intro earlier hmember hearlier
          rw [List.any_eq_false] at hseen
          exact hseen earlier hmember hearlier
        rw [hnone, Option.none_or]
        by_cases hsome : start.ghost_wrapper.lookup node = none
        · rw [List.find?_cons_of_neg (by rw [hghost, hsome]; simp), List.find?_nil, hsome]
          grind
        · rw [List.find?_cons_of_pos (by rw [hghost]; exact Option.isSome_iff_ne_none.mpr hsome)]
          grind

theorem deliveredAll_of_deliver_changes {subgraph after : Subgraph O S TOuter TInner}
    (h : subgraph.deliver_changes = some after) : ∃ start flag,
      start = { subgraph with
        pointstamp_tracker :=
          { subgraph.pointstamp_tracker with
            pushed_changes := subgraph.pointstamp_tracker.pushed_changes.drain.2 } } ∧
      DeliveredAll subgraph.pointstamp_tracker.pushed_changes.drain.1 start (after, flag) := by
  obtain ⟨⟨last, flag⟩, hfold, rfl⟩ := Option.map_eq_some_iff.mp h
  refine ⟨_, flag, rfl, ?_⟩
  exact (Run.of_foldlM hfold).invariant (P := fun done state => DeliveredAll done _ state)
    (DeliveredAll.refl _) fun hdone hstep => hdone.snoc hstep

/-! ### The changes of one call -/

/-- Two states with the same children and activations. -/
structure SameChildren (subgraph after : Subgraph O S TOuter TInner) : Prop where
  framed : Framed subgraph after
  children : after.children = subgraph.children
  active : after.temp_active = subgraph.temp_active

theorem SameChildren.refl (subgraph : Subgraph O S TOuter TInner) : SameChildren subgraph subgraph :=
  ⟨Framed.refl subgraph, rfl, rfl⟩

theorem SameChildren.trans {first second third : Subgraph O S TOuter TInner}
    (h : SameChildren first second) (h' : SameChildren second third) : SameChildren first third :=
  ⟨h.framed.trans h'.framed, h'.children.trans h.children, h'.active.trans h.active⟩

theorem sameChildren_commit_pointstamp {subgraph after : Subgraph O S TOuter TInner}
    {change : (Location × TInner) × ℤ} (h : subgraph.commit_pointstamp change = some after) :
    SameChildren subgraph after := by
  refine ⟨framed_commit_pointstamp h, ?_, ?_⟩
  all_goals
    obtain ⟨⟨location, time⟩, delta⟩ := change
    simp only [commit_pointstamp] at h
    split at h
    · split at h
      all_goals
        obtain ⟨batches, _, rfl⟩ := Option.map_eq_some_iff.mp h
        rfl
    · cases h
      rfl

theorem sameChildren_report_output {subgraph after : Subgraph O S TOuter TInner} {output : ℕ}
    (h : subgraph.report_output output = some after) : SameChildren subgraph after := by
  refine ⟨framed_report_output h, ?_, ?_⟩
  all_goals
    unfold report_output at h
    split at h
    case h_1 =>
      cases h
      rfl
    case h_2 => cases h

theorem DeliveredAll.between {changes : List ((Location × TInner) × ℤ)} {flag : Bool}
    {subgraph start last after : Subgraph O S TOuter TInner} (h : DeliveredAll changes start (last, flag))
    (hstart : SameChildren subgraph start) (hlast : SameChildren last after) :
    DeliveredAll changes subgraph (after, flag) := by
  have hwrapper : start.wrapper_of = subgraph.wrapper_of := by
    funext change
    unfold wrapper_of
    rw [hstart.framed.ghost_wrapper]
  have hghost : start.at_ghost = subgraph.at_ghost := by
    funext change
    unfold at_ghost
    rw [hwrapper]
  refine ⟨(hstart.framed.trans h.framed).trans hlast.framed, ?_, ?_, ?_, ?_⟩
  · rw [← hghost]
    exact h.flag
  · intro index port key
    have hfrontier := h.frontier index port key
    unfold input_frontier at hfrontier ⊢
    rw [hlast.children, hfrontier, hstart.children, hstart.framed.ghost_wrapper]
  · intro index ghost port key
    have hfrontier := h.wrapper index ghost port key
    unfold wrapper_frontier at hfrontier ⊢
    rw [hlast.children, hfrontier, hstart.children, hstart.framed.ghost_wrapper]
  · intro index
    have hactive := h.active index
    simp only [hwrapper, hghost, hstart.framed.notified, hstart.active] at hactive
    rw [hlast.active]
    exact hactive

variable [PathSummary S TInner]

/-- The tracker that the buffered changes lead to. -/
def Settles (subgraph : Subgraph O S TOuter TInner) (tracker : Tracker S TInner) : Prop :=
  ∃ committed, subgraph.commit_pointstamps = some committed ∧
    committed.pointstamp_tracker.Propagates tracker

/-- By how much an implications frontier holds a time more than before. -/
def frontier_change (subgraph : Subgraph O S TOuter TInner) (tracker : Tracker S TInner)
    (location : Location) (time : TInner) : ℤ :=
  (if time ∈ (tracker.implications_at location).frontier then 1 else 0) -
    if time ∈ (subgraph.pointstamp_tracker.implications_at location).frontier then 1 else 0

/-- The implications frontier of an input of a node changes. -/
def Moves (subgraph : Subgraph O S TOuter TInner) (tracker : Tracker S TInner) (node : ℕ) : Prop :=
  ∃ port time, subgraph.frontier_change tracker (Location.new_target node port) time ≠ 0

/-- No changes wait to be delivered, and the tracker is at rest. -/
structure Resting (subgraph : Subgraph O S TOuter TInner) : Prop where
  quiet : subgraph.pointstamp_tracker.Quiet
  pushed : subgraph.pointstamp_tracker.pushed_changes = ChangeBatch.new

/-- What a call of `propagate_pointstamps` delivers: changes sorted by location, none zero, that
    add up to the changes of the implications frontiers. -/
structure Delivery (subgraph after : Subgraph O S TOuter TInner) (tracker : Tracker S TInner)
    (changes : List ((Location × TInner) × ℤ)) : Prop where
  settles : subgraph.Settles tracker
  same : SameCounts tracker after.pointstamp_tracker
  change : ∀ location time, tally changes (location, time) =
    subgraph.frontier_change tracker location time
  nonzero : ∀ change ∈ changes, change.2 ≠ 0
  sorted : changes.Pairwise keyLt
  resting : after.Resting
  delivered : ∃ flag, DeliveredAll changes subgraph (after, flag)

theorem Resting.delivery {subgraph after : Subgraph O S TOuter TInner} (h : subgraph.Resting)
    (hpropagates : subgraph.Propagates after) :
    ∃ tracker changes, Delivery subgraph after tracker changes := by
  obtain ⟨committed, propagated, delivered, hstages⟩ := hpropagates.stages
  obtain ⟨start, flag, hstart, hall⟩ := deliveredAll_of_deliver_changes hstages.deliver
  have hsame := hstages.same
  refine ⟨propagated.pointstamp_tracker, propagated.pointstamp_tracker.pushed_changes.drain.1,
    ⟨committed, hstages.commit, hstages.propagate⟩, hsame, ?_, ?_, ?_, ?_, flag, ?_⟩
  · intro location time
    exact (ChangeBatch.tally_compact _ _).trans (hstages.pushed_value h.quiet h.pushed location time)
  · exact (hstages.nonZero h.quiet h.pushed).compact
  · exact ChangeBatch.compact_sorted _
  · exact ⟨hsame.quiet (hstages.counted h.quiet).quiet, hstages.pushed⟩
  · apply hall.between
    · have hcommit : SameChildren subgraph committed := by
        have hfold := hstages.commit
        unfold commit_pointstamps at hfold
        refine foldlM_invariant (P := fun middle => SameChildren subgraph middle) ?_ ?_ hfold
        · exact ⟨⟨rfl, rfl, rfl, rfl, rfl, rfl⟩, rfl, rfl⟩
        · exact fun _ hbefore hstep => hbefore.trans (sameChildren_commit_pointstamp hstep)
      refine hcommit.trans ?_
      rw [hstart, hstages.propagated_eq]
      exact ⟨⟨rfl, rfl, rfl, rfl, rfl, rfl⟩, rfl, rfl⟩
    · have hfold := hstages.report
      unfold report_outputs at hfold
      exact foldlM_invariant (P := fun middle => SameChildren delivered middle) (SameChildren.refl _)
        (fun _ hbefore hstep => hbefore.trans (sameChildren_report_output hstep)) hfold

theorem Resting.step [Operate O TInner] {subgraph after : Subgraph O S TOuter TInner}
    {event : ScopeEvent TOuter TInner} (h : subgraph.Resting) (hstep : ScopeStep subgraph event after) :
    after.Resting := by
  rcases hstep.kept with ⟨_, hpropagates⟩ | ⟨_, rfl⟩ | ⟨_, hkept⟩
  · obtain ⟨_, _, hdelivery⟩ := h.delivery hpropagates
    exact hdelivery.resting
  · exact ⟨h.quiet, h.pushed⟩
  · exact ⟨hkept.same.quiet h.quiet, hkept.pushed.trans h.pushed⟩

theorem Resting.of_run [Operate O TInner] [PartialOrder S] [DecidableLE S]
    {builder : SubgraphBuilder O S TOuter TInner} {iteration : IterationOrder ℕ} {eager : Bool}
    {fuel : ℕ} {built last : Subgraph O S TOuter TInner}
    (hbuild : builder.build iteration eager fuel = some built)
    {events : List (ScopeEvent TOuter TInner)} (hrun : Run ScopeStep built events last) :
    last.Resting := by
  obtain ⟨topology, hbuilt⟩ := SubgraphBuilder.built_of_build hbuild
  have hfresh := hbuilt.allocated.fresh
  exact hrun.invariant (P := fun _ last => last.Resting) ⟨hfresh.tracking.quiet, hfresh.pushed⟩
    fun hbefore hstep => hbefore.step hstep

/-! ### Which wrappers are woken -/

/-- The least ghost at which a frontier changes. -/
structure FirstToMove (subgraph : Subgraph O S TOuter TInner) (tracker : Tracker S TInner)
    (ghost : ℕ) : Prop where
  is_ghost : (subgraph.ghost_wrapper.lookup ghost).isSome
  moves : subgraph.Moves tracker ghost
  least : ∀ other, (subgraph.ghost_wrapper.lookup other).isSome → subgraph.Moves tracker other →
    ghost ≤ other

/-- Each wrapper of a ghost that moves is active already, or takes part itself in what changes and
    asks to be told, or its ghost moves first and does not ask to be told. -/
def Wakes (subgraph : Subgraph O S TOuter TInner) (tracker : Tracker S TInner) : Prop :=
  ∀ ghost wrapper, subgraph.ghost_wrapper.lookup ghost = some wrapper → subgraph.Moves tracker ghost →
    wrapper ∈ subgraph.temp_active ∨
    (subgraph.notified wrapper = true ∧ subgraph.Moves tracker wrapper) ∨
    ∃ first, subgraph.FirstToMove tracker first ∧
      subgraph.ghost_wrapper.lookup first = some wrapper ∧ subgraph.notified first = false

/-- Every change at a ghost has gone to its wrapper, which is active, and every other change to
    the child it is at. -/
structure WrappersTold (subgraph after : Subgraph O S TOuter TInner) : Prop where
  own : ∀ index port time, (after.input_frontier index port).value time =
    (subgraph.input_frontier index port).value time +
      if subgraph.ghost_wrapper.lookup index = none then
        subgraph.frontier_change after.pointstamp_tracker (Location.new_target index port) time else 0
  wrappers : ∀ wrapper ghost port time, (after.wrapper_frontier wrapper ghost port).value time =
    (subgraph.wrapper_frontier wrapper ghost port).value time +
      if subgraph.ghost_wrapper.lookup ghost = some wrapper then
        subgraph.frontier_change after.pointstamp_tracker (Location.new_target ghost port) time else 0
  woken : ∀ ghost wrapper, subgraph.ghost_wrapper.lookup ghost = some wrapper →
    subgraph.Moves after.pointstamp_tracker ghost → wrapper ∈ after.temp_active

theorem frontier_change_congr {subgraph : Subgraph O S TOuter TInner} {tracker tracker' : Tracker S TInner}
    (h : SameCounts tracker tracker') :
    subgraph.frontier_change tracker' = subgraph.frontier_change tracker := by
  funext location time
  unfold frontier_change
  rw [h.implications_at]

theorem moves_congr {subgraph : Subgraph O S TOuter TInner} {tracker tracker' : Tracker S TInner}
    (h : SameCounts tracker tracker') : subgraph.Moves tracker' = subgraph.Moves tracker := by
  funext node
  unfold Moves
  rw [frontier_change_congr h]

namespace Delivery

variable {subgraph after : Subgraph O S TOuter TInner} {tracker : Tracker S TInner}
  {changes : List ((Location × TInner) × ℤ)}

/-- A frontier changes exactly if a change at it is delivered. -/
theorem moves_iff (h : Delivery subgraph after tracker changes) (node : ℕ) :
    subgraph.Moves tracker node ↔
      ∃ change ∈ changes, ∃ port, change.1.1 = Location.new_target node port := by
  constructor
  · rintro ⟨port, time, hmoves⟩
    rw [← h.change] at hmoves
    obtain ⟨change, hchange, hkey⟩ := exists_mem_of_tally_ne_zero hmoves
    exact ⟨change, hchange, port, congrArg Prod.fst hkey⟩
  · rintro ⟨⟨⟨location, time⟩, delta⟩, hchange, port, rfl⟩
    refine ⟨port, time, ?_⟩
    rw [← h.change, tally_of_mem_of_nodup (nodup_keys_of_pairwise h.sorted) hchange]
    exact h.nonzero _ hchange

/-- The first change at a ghost is at the least ghost that moves. -/
theorem first_iff (h : Delivery subgraph after tracker changes) (wrapper : ℕ) :
    (∃ first, changes.find? subgraph.at_ghost = some first ∧ subgraph.wrapper_of first = some wrapper ∧
      subgraph.notified first.1.1.node = false) ↔
    ∃ ghost, subgraph.FirstToMove tracker ghost ∧ subgraph.ghost_wrapper.lookup ghost = some wrapper ∧
      subgraph.notified ghost = false := by
  have hfirst : ∀ first, changes.find? subgraph.at_ghost = some first →
      subgraph.FirstToMove tracker first.1.1.node ∧
      subgraph.wrapper_of first = subgraph.ghost_wrapper.lookup first.1.1.node := by
    rintro ⟨⟨⟨node, port⟩, time⟩, delta⟩ hfind
    obtain ⟨hghost, earlier, later, rfl, hearlier⟩ := List.find?_eq_some_iff_append.mp hfind
    cases port with
    | source port => cases hghost
    | target port =>
      refine ⟨⟨hghost, (h.moves_iff node).mpr ⟨_, List.mem_append_right _ List.mem_cons_self, port, rfl⟩,
        ?_⟩, rfl⟩
      intro other hother hmoves
      obtain ⟨⟨⟨location, time'⟩, delta'⟩, hchange, port', rfl⟩ := (h.moves_iff other).mp hmoves
      have hsorted := (List.pairwise_append.mp h.sorted).2.1
      rcases List.mem_append.mp hchange with hbefore | hfrom
      · -- nothing before the first one is at a ghost
        have hnot := hearlier _ hbefore
        rw [show subgraph.at_ghost ((Location.new_target other port', time'), delta') = true from hother]
          at hnot
        cases hnot
      · rcases List.mem_cons.mp hfrom with heq | hafter
        · exact le_of_eq (congrArg (fun change => change.1.1.node) heq).symm
        · exact Location.node_le_of_compare ((List.pairwise_cons.mp hsorted).1 _ hafter)
  constructor
  · rintro ⟨first, hfind, hwrapper, hnotified⟩
    obtain ⟨hmoves, hlookup⟩ := hfirst first hfind
    exact ⟨_, hmoves, hlookup.symm.trans hwrapper, hnotified⟩
  · rintro ⟨ghost, hghost, hlookup, hnotified⟩
    obtain ⟨change, hchange, port, hlocation⟩ := (h.moves_iff ghost).mp hghost.moves
    have hat : subgraph.at_ghost change = true := by
      unfold at_ghost wrapper_of
      rw [hlocation]
      exact hghost.is_ghost
    obtain ⟨first, hfind⟩ := Option.isSome_iff_exists.mp (List.find?_isSome.mpr ⟨change, hchange, hat⟩)
    obtain ⟨hmoves, hwrapper⟩ := hfirst first hfind
    have hnode : first.1.1.node = ghost := Nat.le_antisymm (hmoves.least ghost hghost.is_ghost hghost.moves)
      (hghost.least _ hmoves.is_ghost hmoves.moves)
    refine ⟨first, hfind, ?_, ?_⟩
    · rw [hwrapper, hnode, hlookup]
    · rw [hnode, hnotified]

theorem wrappersTold_iff (h : Delivery subgraph after tracker changes) :
    WrappersTold subgraph after ↔ subgraph.Wakes tracker := by
  obtain ⟨flag, hdelivered⟩ := h.delivered
  have hactive : ∀ index, index ∈ after.temp_active ↔ index ∈ subgraph.temp_active ∨
      (subgraph.notified index = true ∧ subgraph.Moves tracker index) ∨
      ∃ ghost, subgraph.FirstToMove tracker ghost ∧ subgraph.ghost_wrapper.lookup ghost = some index ∧
        subgraph.notified ghost = false := by
    intro index
    rw [h.moves_iff, ← h.first_iff]
    exact hdelivered.active index
  constructor
  · intro htold ghost wrapper hlookup hmoves
    rw [← moves_congr h.same] at hmoves
    exact (hactive wrapper).mp (htold.woken ghost wrapper hlookup hmoves)
  · intro hwakes
    refine ⟨?_, ?_, ?_⟩
    · intro index port time
      rw [frontier_change_congr h.same, ← h.change]
      exact hdelivered.frontier index port time
    · intro wrapper ghost port time
      rw [frontier_change_congr h.same, ← h.change]
      exact hdelivered.wrapper wrapper ghost port time
    · intro ghost wrapper hlookup hmoves
      rw [moves_congr h.same] at hmoves
      exact (hactive wrapper).mpr (hwakes ghost wrapper hlookup hmoves)

end Delivery

theorem Settles.unique {subgraph : Subgraph O S TOuter TInner} {tracker tracker' : Tracker S TInner}
    (h : subgraph.Settles tracker) (h' : subgraph.Settles tracker') : tracker = tracker' := by
  obtain ⟨committed, hcommit, hpropagates⟩ := h
  obtain ⟨committed', hcommit', hpropagates'⟩ := h'
  obtain rfl := Option.some.inj (hcommit.symm.trans hcommit')
  exact hpropagates.unique hpropagates'

/-- In all runs of a built subgraph, wrappers are told of all changes at their ghosts, and woken,
    exactly if the ghosts that move leave each wrapper woken by the first of them. -/
theorem wrappers_told_iff [Operate O TInner] [PartialOrder S] [DecidableLE S]
    {builder : SubgraphBuilder O S TOuter TInner} {iteration : IterationOrder ℕ} {eager : Bool}
    {fuel : ℕ} {built subgraph after : Subgraph O S TOuter TInner}
    (hbuild : builder.build iteration eager fuel = some built)
    {events : List (ScopeEvent TOuter TInner)} (hrun : Run ScopeStep built events subgraph)
    (hpropagates : subgraph.Propagates after) :
    WrappersTold subgraph after ↔ ∃ tracker, subgraph.Settles tracker ∧ subgraph.Wakes tracker := by
  obtain ⟨tracker, changes, hdelivery⟩ := (Resting.of_run hbuild hrun).delivery hpropagates
  rw [hdelivery.wrappersTold_iff]
  constructor
  · exact fun hwakes => ⟨tracker, hdelivery.settles, hwakes⟩
  · rintro ⟨tracker', hsettles, hwakes⟩
    rwa [hdelivery.settles.unique hsettles]

/-! ### One wrapper, and two -/

/-- An idle child that does not ask to be told. -/
def unnotified_child (index : ℕ) : PerOperatorState (Idle (Unsigned 64)) (Unsigned 64) (Unsigned 64) :=
  { idle_child index 1 1 [[Antichain.from_elem 0]] with notify := false }

def wrapper_child (index : ℕ) (ghosts : List ℕ) :
    PerOperatorState (Idle (Unsigned 64)) (Unsigned 64) (Unsigned 64) :=
  { unnotified_child index with shared_progress := SharedProgress.new_ghosts 1 1 ghosts }

/-- A scope with one input and one output, in which the ghosts `1` and `2` may stand for wrappers
    `5` and `6`. -/
def ghost_scope_builder (first_ghosts second_ghosts : List ℕ) :
    SubgraphBuilder (Idle (Unsigned 64)) (Unsigned 64) (Unsigned 64) (Unsigned 64) :=
  (((((((SubgraphBuilder.new_from 1).new_input ChangeBatch.new).2.new_output.2.add_child_no_path
    (unnotified_child 1)).add_child_no_path (unnotified_child 2)).add_child
    (idle_child 3 0 0 [])).add_child (idle_child 4 0 0 [])).add_child
    (wrapper_child 5 first_ghosts)).add_child (wrapper_child 6 second_ghosts)

/-- Both ghosts stand for one wrapper. -/
def one_wrapper_builder : SubgraphBuilder (Idle (Unsigned 64)) (Unsigned 64) (Unsigned 64) (Unsigned 64) :=
  (((ghost_scope_builder [1, 2] []).add_fpga_operator 5 [1, 2] [(1, 2)]).connect ⟨0, 0⟩ ⟨5, 0⟩).connect
    ⟨5, 0⟩ ⟨0, 0⟩

/-- Each ghost stands for a wrapper of its own. -/
def two_wrappers_builder : SubgraphBuilder (Idle (Unsigned 64)) (Unsigned 64) (Unsigned 64) (Unsigned 64) :=
  ((((((ghost_scope_builder [1] [2]).add_fpga_operator 5 [1] []).add_fpga_operator 6 [2] []).connect
    ⟨0, 0⟩ ⟨5, 0⟩).connect ⟨0, 0⟩ ⟨6, 0⟩).connect ⟨5, 0⟩ ⟨0, 0⟩).connect ⟨6, 0⟩ ⟨0, 0⟩

theorem one_wrapper_builds : (one_wrapper_builder.build IterationOrder.listed true 40).isSome := by
  decide

theorem two_wrappers_builds : (two_wrappers_builder.build IterationOrder.listed true 40).isSome := by
  decide

def one_wrapper : Subgraph (Idle (Unsigned 64)) (Unsigned 64) (Unsigned 64) (Unsigned 64) :=
  (one_wrapper_builder.build IterationOrder.listed true 40).get one_wrapper_builds

def two_wrappers : Subgraph (Idle (Unsigned 64)) (Unsigned 64) (Unsigned 64) (Unsigned 64) :=
  (two_wrappers_builder.build IterationOrder.listed true 40).get two_wrappers_builds

/-- A message at the first ghost, and one at the second. -/
def ghost_messages : List ((Location × Unsigned 64) × ℤ) :=
  [((Location.new_target 1 0, 5), 1), ((Location.new_target 2 0, 5), 1)]

theorem one_wrapper_propagates :
    ((one_wrapper.receive ghost_messages).propagate_pointstamps 40).isSome := by decide

theorem two_wrappers_propagates :
    ((two_wrappers.receive ghost_messages).propagate_pointstamps 40).isSome := by decide

def one_wrapper_after : Subgraph (Idle (Unsigned 64)) (Unsigned 64) (Unsigned 64) (Unsigned 64) :=
  ((one_wrapper.receive ghost_messages).propagate_pointstamps 40).get one_wrapper_propagates

def two_wrappers_after : Subgraph (Idle (Unsigned 64)) (Unsigned 64) (Unsigned 64) (Unsigned 64) :=
  ((two_wrappers.receive ghost_messages).propagate_pointstamps 40).get two_wrappers_propagates

theorem one_wrapper_step :
    (one_wrapper.receive ghost_messages).Propagates one_wrapper_after :=
  ⟨40, (Option.some_get one_wrapper_propagates).symm⟩

/-- One wrapper of two ghosts is told of the changes at both. -/
theorem wrappers_told_iff_example :
    WrappersTold (one_wrapper.receive ghost_messages) one_wrapper_after := by
  have hrun : Run ScopeStep one_wrapper [.receive ghost_messages] (one_wrapper.receive ghost_messages) :=
    Run.nil.snoc ScopeStep.receive
  have hlookup : ∀ {ghost wrapper}, (one_wrapper.receive ghost_messages).ghost_wrapper.lookup ghost =
      some wrapper → 1 ≤ ghost ∧ wrapper = 5 := by
    intro ghost wrapper hghost
    have hkey : ghost ∈ (one_wrapper.receive ghost_messages).ghost_wrapper.keys :=
      AList.lookup_isSome.mp (Option.isSome_of_eq_some hghost)
    rw [show (one_wrapper.receive ghost_messages).ghost_wrapper.keys = [2, 1] by decide] at hkey
    rcases List.mem_cons.mp hkey with rfl | hkey
    · exact ⟨by decide, Option.some.inj (hghost.symm.trans (by decide))⟩
    · obtain rfl := List.mem_singleton.mp hkey
      exact ⟨by decide, Option.some.inj (hghost.symm.trans (by decide))⟩
  obtain ⟨tracker, changes, hdelivery⟩ :=
    (Resting.of_run (Option.some_get one_wrapper_builds).symm hrun).delivery one_wrapper_step
  refine (wrappers_told_iff (Option.some_get one_wrapper_builds).symm hrun one_wrapper_step).mpr
    ⟨tracker, hdelivery.settles, ?_⟩
  intro ghost wrapper hghost _
  obtain ⟨_, rfl⟩ := hlookup hghost
  -- the first ghost is the first to move, and its wrapper is the only one
  have hmoves : Moves (one_wrapper.receive ghost_messages) one_wrapper_after.pointstamp_tracker 1 :=
    ⟨0, 5, by decide⟩
  rw [moves_congr hdelivery.same] at hmoves
  refine Or.inr (Or.inr ⟨1, ⟨by decide, hmoves, ?_⟩, by decide, by decide⟩)
  intro other hother _
  obtain ⟨_, hsome⟩ := Option.isSome_iff_exists.mp hother
  exact (hlookup hsome).1

/-- Of two wrappers whose ghosts are at the same time sent messages only the first is woken. -/
theorem second_wrapper_not_woken : ¬ WrappersTold (two_wrappers.receive ghost_messages) two_wrappers_after := by
  intro htold
  have hmoves : Moves (two_wrappers.receive ghost_messages) two_wrappers_after.pointstamp_tracker 2 :=
    ⟨0, 5, by decide⟩
  have hwoken : 6 ∈ two_wrappers_after.temp_active := htold.woken 2 6 (by decide) hmoves
  exact absurd hwoken (by decide)

end Subgraph

end Timely
