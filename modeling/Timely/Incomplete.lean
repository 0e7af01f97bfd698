/-
  Timely/Incomplete.lean
  ======================
  **The number of incomplete children.**

  A subgraph keeps a flag for each child and the number of flags that are set.
  Activating a child keeps the two in step, but `build` starts the number at
  four less than the number of children, so they agree only in a subgraph with
  exactly three children, besides the outer scope, that do not count.
-/
import Timely.SubgraphFrame
import Mathlib.Data.List.Count

set_option linter.unusedSectionVars false

namespace Timely

open Library

/-- The children, besides the outer scope, that do not count as incomplete. -/
def SubgraphBuilder.uncounted {O S TOuter TInner : Type} [Ord TOuter] [Ord TInner]
    (builder : SubgraphBuilder O S TOuter TInner) : ℕ :=
  builder.children.countP fun child => child.index ≠ 0 && !child.count_for_incomplete

namespace Subgraph

variable {O S TOuter TInner : Type}
  [PartialOrder TOuter] [DecidableLE TOuter] [DecidableEq TOuter] [Ord TOuter]
  [LinearExtension TOuter]
  [PartialOrder TInner] [DecidableLE TInner] [DecidableEq TInner] [Ord TInner]
  [LinearExtension TInner] [Refines TOuter TInner]

/-- The counter is the number of incomplete children.  Then no decrement fails, and a subgraph
    that is finished has no incomplete child and tracks nothing. -/
structure Counted (subgraph : Subgraph O S TOuter TInner) : Prop where
  count : subgraph.incomplete_count = subgraph.incomplete.count true
  decrement : ∀ child_index < subgraph.incomplete.length, ∀ flag,
    (subgraph.set_incomplete child_index flag).isSome
  finished : subgraph.unfinished = false →
    (∀ flag ∈ subgraph.incomplete, flag = false) ∧
      subgraph.pointstamp_tracker.tracking_anything = false

theorem counted_iff {subgraph : Subgraph O S TOuter TInner} :
    subgraph.Counted ↔ subgraph.incomplete_count = subgraph.incomplete.count true := by
  constructor
  · exact fun h => h.count
  · intro hcount
    refine ⟨hcount, ?_, ?_⟩
    · intro child_index hindex flag
      unfold set_incomplete
      rw [List.getElem?_eq_getElem hindex]
      by_cases hknown : flag = subgraph.incomplete[child_index]
      · simp [hknown]
      · cases flag with
        | true => simp [hknown]
        | false =>
          -- the flag that is cleared is one of those counted
          have hset : subgraph.incomplete[child_index] = true := by simpa using hknown
          have hpos : 0 < subgraph.incomplete_count := by
            rw [hcount]
            exact List.count_pos_iff.mpr (hset ▸ List.getElem_mem hindex)
          simp [hset, hpos]
    · intro hfinished
      unfold unfinished at hfinished
      rw [Bool.or_eq_false_iff] at hfinished
      refine ⟨?_, hfinished.2⟩
      have hzero : subgraph.incomplete.count true = 0 := by
        rw [← hcount]
        exact Nat.le_zero.mp (Nat.le_of_not_lt (of_decide_eq_false hfinished.1))
      intro flag hflag
      cases flag with
      | false => rfl
      | true => exact absurd hflag (List.count_eq_zero.mp hzero)

/-- Setting one flag keeps the counter in step. -/
theorem Counted.set_incomplete {subgraph after : Subgraph O S TOuter TInner} {child_index : ℕ}
    {flag : Bool} (h : subgraph.Counted)
    (hset : subgraph.set_incomplete child_index flag = some after) : after.Counted := by
  apply counted_iff.mpr
  have hcount := h.count
  unfold Subgraph.set_incomplete at hset
  split at hset
  case h_1 => cases hset
  case h_2 known hknown =>
    obtain ⟨hindex, rfl⟩ := List.getElem?_eq_some_iff.mp hknown
    have hnew := List.count_set (a := flag) (b := true) hindex
    split_ifs at hset with hsame hflag hpos
    · cases hset
      exact hcount
    · cases hset
      have hold : subgraph.incomplete[child_index] = false := by simpa [hflag] using hsame
      rw [hold, hflag] at hnew
      simpa [hflag, hcount] using hnew.symm
    · cases hset
      have hclear : flag = false := by simpa using hflag
      have hold : subgraph.incomplete[child_index] = true := by simpa [hclear] using hsame
      rw [hold, hclear] at hnew
      simpa [hclear, hcount] using hnew.symm

theorem Counted.framed {subgraph after : Subgraph O S TOuter TInner} (h : subgraph.Counted)
    (hframed : Framed subgraph after) : after.Counted := by
  apply counted_iff.mpr
  rw [hframed.incomplete_count, hframed.incomplete]
  exact h.count

/-- Every step of a scope keeps the counter in step with the flags. -/
theorem Counted.step [PathSummary S TInner] [Operate O TInner]
    {subgraph after : Subgraph O S TOuter TInner} {event : ScopeEvent TOuter TInner}
    (h : subgraph.Counted) (hstep : ScopeStep subgraph event after) : after.Counted := by
  rcases hstep.framed with hframed | ⟨child_index, flag, -, hactivate⟩
  · exact h.framed hframed
  · obtain ⟨counted, hset, hframed⟩ := framed_activate_child hactivate
    exact (h.set_incomplete hset).framed hframed

/-! ### What `build` starts with -/

/-- Connecting children does not change which of them count. -/
theorem counts_of_assemble {builder : SubgraphBuilder O S TOuter TInner}
    {edges : List (Source × Target)} {children : List (PerOperatorState O S TInner)}
    {topology : Builder S} (h : builder.assemble edges = some (children, topology)) :
    ∃ sorted : List (PerOperatorState O S TInner), sorted.Perm builder.children ∧
      sorted.map PerOperatorState.index = List.range sorted.length ∧
      children.map PerOperatorState.count_for_incomplete =
        (sorted.map PerOperatorState.count_for_incomplete).set 0 true := by
  obtain ⟨sorted, start, nodes, connected, hperm, hindices, _, _, hconnected, h⟩ :=
    SubgraphBuilder.assemble_cases h
  refine ⟨sorted, hperm, hindices, ?_⟩
  have hfirst : connected.map PerOperatorState.count_for_incomplete =
      (sorted.map PerOperatorState.count_for_incomplete).set 0 true := by
    refine foldlM_invariant (P := fun state : List (PerOperatorState O S TInner) =>
      state.map PerOperatorState.count_for_incomplete =
        (sorted.map PerOperatorState.count_for_incomplete).set 0 true) ?_ ?_ hconnected
    · exact List.map_set
    · intro before edge after _ hbefore hpush
      unfold SubgraphBuilder.push_edge at hpush
      split at hpush
      case h_1 => cases hpush
      case h_2 child hchild =>
        obtain ⟨ports, _, rfl⟩ := Option.map_eq_some_iff.mp hpush
        refine Eq.trans (map_set_of_eq hchild ?_) hbefore
        rfl
  refine foldlM_invariant (P := fun state : List (PerOperatorState O S TInner) × Builder S =>
    state.1.map PerOperatorState.count_for_incomplete =
      (sorted.map PerOperatorState.count_for_incomplete).set 0 true) hfirst ?_ h
  intro before edge after _ hbefore hpush
  unfold SubgraphBuilder.push_ghost_edge at hpush
  split at hpush
  case h_1 => cases hpush
  case h_2 child hchild =>
    obtain ⟨ports, _, hpush⟩ := Option.bind_eq_some_iff.mp hpush
    obtain ⟨extended, _, rfl⟩ := Option.map_eq_some_iff.mp hpush
    refine Eq.trans (map_set_of_eq hchild ?_) hbefore
    rfl

/-- The counter of a subgraph that has just been built, and its flags. -/
theorem incomplete_of_build [PartialOrder S] [DecidableLE S] [PathSummary S TInner]
    {builder : SubgraphBuilder O S TOuter TInner} {iteration : IterationOrder ℕ} {eager : Bool}
    {fuel : ℕ} {built : Subgraph O S TOuter TInner}
    (hbuild : builder.build iteration eager fuel = some built) :
    built.incomplete_count = built.incomplete.count true ↔ builder.uncounted = 3 := by
  unfold SubgraphBuilder.build at hbuild
  obtain ⟨reorganized, _, hbuild⟩ := Option.bind_eq_some_iff.mp hbuild
  obtain ⟨⟨children, topology⟩, hassembled, hbuild⟩ := Option.bind_eq_some_iff.mp hbuild
  obtain ⟨allocated, _, hbuild⟩ := Option.bind_eq_some_iff.mp hbuild
  obtain ⟨sorted, hperm, hindices, hcounts⟩ := counts_of_assemble hassembled
  split at hbuild
  case isFalse => cases hbuild
  case isTrue hfour =>
    cases hbuild
    have hlength : children.length = sorted.length := by
      have hmaps := congrArg List.length hcounts
      rwa [List.length_map, List.length_set, List.length_map] at hmaps
    change children.length - 4 =
      ((children.map PerOperatorState.count_for_incomplete).set 0 false).count true ↔ _
    change 4 ≤ children.length at hfour
    unfold SubgraphBuilder.uncounted
    rw [← hperm.countP_eq, hcounts, hlength]
    rw [hlength] at hfour
    cases hsorted : sorted with
    | nil =>
      rw [hsorted] at hfour
      cases hfour
    | cons outer rest =>
      rw [hsorted, List.map_cons, List.length_cons, List.range_succ_eq_map] at hindices
      obtain ⟨houter, hrest⟩ := List.cons.inj hindices
      -- child zero is the outer scope, and all others have positive indices
      have hpositive : ∀ child ∈ rest, child.index ≠ 0 := by
        intro child hchild
        have hindex : child.index ∈ (List.range rest.length).map Nat.succ := by
          rw [← hrest]
          exact List.mem_map_of_mem hchild
        obtain ⟨position, _, hposition⟩ := List.mem_map.mp hindex
        rw [← hposition]
        exact Nat.succ_ne_zero position
      have huncounted : (outer :: rest).countP (fun child =>
          decide (child.index ≠ 0) && !child.count_for_incomplete) =
          rest.countP fun child => !child.count_for_incomplete := by
        rw [List.countP_cons_of_neg (by simp [houter])]
        apply List.countP_congr
        intro child hchild
        simp [hpositive child hchild]
      have hcounted : ((((outer :: rest).map PerOperatorState.count_for_incomplete).set 0 true).set 0
          false).count true = rest.countP PerOperatorState.count_for_incomplete := by
        rw [List.map_cons, List.set_cons_zero, List.set_cons_zero,
          List.count_cons_of_ne (by decide), List.count_eq_countP, List.countP_map]
        apply List.countP_congr
        intro child _
        simp
      have htotal := List.length_eq_countP_add_countP PerOperatorState.count_for_incomplete (l := rest)
      have hnegation : (rest.countP fun child => decide ¬ child.count_for_incomplete = true) =
          rest.countP fun child => !child.count_for_incomplete := by
        apply List.countP_congr
        intro child _
        simp
      rw [hsorted, List.length_cons] at hfour
      rw [huncounted, hcounted, List.length_cons]
      omega

/-! ### Runs -/

section Runs

variable [PartialOrder S] [DecidableLE S] [PathSummary S TInner] [Operate O TInner]

/-- The counter is the number of incomplete children in all states of all runs of a built
    subgraph exactly if three of its children do not count. -/
theorem incomplete_count_iff {builder : SubgraphBuilder O S TOuter TInner}
    {iteration : IterationOrder ℕ} {eager : Bool} {fuel : ℕ} {built : Subgraph O S TOuter TInner}
    (hbuild : builder.build iteration eager fuel = some built) :
    (∀ events last, Run ScopeStep built events last → last.Counted) ↔ builder.uncounted = 3 := by
  rw [← incomplete_of_build hbuild]
  constructor
  · exact fun hall => (hall [] built Run.nil).count
  · intro hcount events last hrun
    exact hrun.invariant (P := fun _ last => last.Counted) (counted_iff.mpr hcount)
      fun hbefore hstep => hbefore.step hstep

end Runs

/-- A scope with six idle children, of which three do not count. -/
def counted_scope_builder : SubgraphBuilder (Idle (Unsigned 64)) (Unsigned 64) (Unsigned 64) (Unsigned 64) :=
  ((((((SubgraphBuilder.new_from 1).add_child (idle_child 1 0 0 [])).add_child
    (idle_child 2 0 0 [])).add_child (idle_child 3 0 0 [])).add_child_no_path
    (idle_child 4 0 0 [])).add_child_no_path (idle_child 5 0 0 [])).add_child_no_path
    (idle_child 6 0 0 [])

theorem counted_scope_builds :
    (counted_scope_builder.build IterationOrder.listed true 20).isSome := by decide

theorem incomplete_count_iff_example :
    ((counted_scope_builder.build IterationOrder.listed true 20).get counted_scope_builds).Counted :=
  (incomplete_count_iff (Option.some_get counted_scope_builds).symm).mpr (by decide) [] _ Run.nil

/-- A scope of six children that all count: once three are complete it takes all for complete,
    and completing a fourth one underflows. -/
theorem incomplete_count_miscounts : ∃ last,
    Run ScopeStep example_scope [.activate_child 1, .activate_child 2, .activate_child 3] last ∧
      last.unfinished = false ∧ last.incomplete.count true = 3 ∧ ¬ last.Counted ∧
      last.activate_child 4 = none := by
  have hruns : (((example_scope.activate_child 1).bind fun first =>
      (first.2.activate_child 2).bind fun second => (second.2.activate_child 3).map fun third =>
        (third.2.unfinished, third.2.incomplete.count true,
          (third.2.activate_child 4).isNone))) = some (false, 3, true) := by decide
  obtain ⟨⟨_, first⟩, hfirst, hruns⟩ := Option.bind_eq_some_iff.mp hruns
  obtain ⟨⟨_, second⟩, hsecond, hruns⟩ := Option.bind_eq_some_iff.mp hruns
  obtain ⟨⟨_, third⟩, hthird, hresult⟩ := Option.map_eq_some_iff.mp hruns
  obtain ⟨hfinished, hresult⟩ := Prod.mk.inj hresult
  obtain ⟨hthree, hnone⟩ := Prod.mk.inj hresult
  have hrun := ((Run.nil.snoc (ScopeStep.activate_child hfirst)).snoc
    (ScopeStep.activate_child hsecond)).snoc (ScopeStep.activate_child hthird)
  refine ⟨third, hrun, hfinished, hthree, ?_, Option.isNone_iff_eq_none.mp hnone⟩
  intro hcounted
  have hall := (hcounted.finished hfinished).1
  have hmember : true ∈ third.incomplete := List.count_pos_iff.mp (by rw [hthree]; decide)
  exact Bool.noConfusion (hall true hmember)

end Subgraph

end Timely
