/-
  Timely/Withholding.lean
  =======================
  **Which subtractions may be withheld** (`PortInformation::is_global`,
  `Subgraph::send_progress`).

  A pointstamp for which `is_global` is false is dominated by an earlier
  implication at its port, or its implication has another reason.  Neither goes
  through the pointstamp itself, as no path leads back to it, so its count may
  be set to zero without a change to any frontier.  Hence what `send_progress`
  holds back in demand mode blocks no one.
-/
import Timely.Internals

set_option linter.unusedSectionVars false

namespace Timely

open Library

/-- A search in a fallible fold that ends without a hit has looked everywhere. -/
theorem anyM_eq_some_false {α : Type} {test : α → Option Bool} {list : List α}
    (h : list.anyM test = some false) : ∀ item ∈ list, test item = some false := by
  induction list with
  | nil => exact fun _ hmem => absurd hmem List.not_mem_nil
  | cons head list ih =>
    rw [List.anyM] at h
    obtain ⟨hit, hhit, hrest⟩ := Option.bind_eq_some_iff.mp h
    cases hit with
    | true => cases hrest
    | false =>
      intro item hitem
      rcases List.mem_cons.mp hitem with rfl | hmem
      · exact hhit
      · exact ih hrest item hmem

namespace Tracker

section Global

variable {S T : Type} [PartialOrder T] [DecidableLE T] [DecidableEq T] [Ord T] [LinearExtension T]
  [PathSummary S T]

/-- Set the count of a time at a location to zero, by an update. -/
def zeroed (tracker : Tracker S T) (location : Location) (time : T) : Tracker S T :=
  tracker.update location time (-(tracker.pointstamps_at location).count_for time)

/-- Nothing waits in the buffers. -/
def Drained (tracker : Tracker S T) : Prop := ∀ location time, tracker.buffered location time = 0

omit [PathSummary S T] in
theorem buffered_update (tracker : Tracker S T) (location other : Location) (time result : T)
    (value : ℤ) : (tracker.update location time value).buffered other result =
      tracker.buffered other result + if (location, time) = (other, result) then value else 0 := by
  obtain ⟨node, port⟩ := location
  cases port with
  | target port => exact buffered_update_target tracker ⟨node, port⟩ time value other result
  | source port => exact buffered_update_source tracker ⟨node, port⟩ time value other result

/-- An update goes to a buffer, and changes no port. -/
theorem Quiet.update {tracker : Tracker S T} (h : tracker.Quiet) (location : Location) (time : T)
    (value : ℤ) : (tracker.update location time value).Quiet := by
  obtain ⟨node, port⟩ := location
  cases port with
  | target port => exact ⟨⟨⟨h.pointstamps, h.implications⟩, h.balance⟩, h.worklist_nil⟩
  | source port => exact ⟨⟨⟨h.pointstamps, h.implications⟩, h.balance⟩, h.worklist_nil⟩

omit [PathSummary S T] in
theorem builder_update (tracker : Tracker S T) (location : Location) (time : T) (value : ℤ) :
    (tracker.update location time value).builder = tracker.builder := by
  obtain ⟨node, port⟩ := location
  cases port <;> rfl

omit [PathSummary S T] in
theorem pointstamps_at_update (tracker : Tracker S T) (location other : Location) (time : T)
    (value : ℤ) :
    (tracker.update location time value).pointstamps_at other = tracker.pointstamps_at other := by
  obtain ⟨node, port⟩ := location
  cases port <;> rfl

/-- The counts that zeroing leaves. -/
theorem Propagates.count_zeroed {tracker after : Tracker S T} {location : Location} {time : T}
    (hquiet : tracker.Quiet) (hdrained : tracker.Drained)
    (h : (tracker.zeroed location time).Propagates after) (other : Location) (result : T) :
    (after.pointstamps_at other).count_for result =
      if (location, time) = (other, result) then 0
      else (tracker.pointstamps_at other).count_for result := by
  have hpropagated := h.propagated (hquiet.update location time _).toBalanced
  have hcount := hpropagated.count other result
  rw [pointstamps_at_update, buffered_update, hdrained, zero_add] at hcount
  by_cases heq : (location, time) = (other, result)
  · obtain ⟨rfl, rfl⟩ := Prod.mk.inj heq
    rw [if_pos rfl] at hcount ⊢
    omega
  · rw [if_neg heq, add_zero] at hcount
    rw [if_neg heq, hcount]

/-! ### Reasons besides the pointstamp itself -/

/-- Where `is_global` is false, an implication that is dominated or has two reasons. -/
theorem is_global_eq_false_iff {tracker : Tracker S T} {location : Location} {time : T} :
    tracker.is_global location time = some false ↔
      tracker.builder.has_location location = true ∧
        ((∃ lower ∈ (tracker.implications_at location).frontier, lower < time) ∨
          1 < (tracker.implications_at location).count_for time) := by
  rw [← port_isSome]
  unfold is_global implications_at
  cases tracker.port location with
  | none => simp
  | some port => simp [less_than_iff, imp_iff_or_not, or_comm, and_comm]

variable [DecidableEq S] [AdvancingSummary S T]

/-- A pointstamp that is not global is covered by the other ones. -/
theorem covers_of_not_global [Finite T] {tracker after : Tracker S T} {rank : Location → ℕ}
    {bound : ℕ} {location : Location} {time : T} (hquiet : tracker.Quiet)
    (hranked : tracker.builder.Ranked rank bound) (hafter : after.Quiet)
    (hbuilder : after.builder = tracker.builder)
    (hglobal : tracker.is_global location time = some false)
    (hothers : ∀ origin start, start ∈ (tracker.pointstamps_at origin).frontier →
      (origin, start) ≠ (location, time) →
      Covers (fun place => (after.implications_at place).frontier) origin start) :
    Covers (fun place => (after.implications_at place).frontier) location time := by
  have hmono : StepMonotone (tracker.builder.step (T := T)) := tracker.builder.step_monotone
  have hwf : WellFounded (tracker.builder.step (T := T)) := hranked.wellFounded
  have hstable := hquiet.stable
  have hstable' := hafter.stable
  rw [hbuilder] at hstable'
  obtain ⟨_, ⟨lower, hlower, hlt⟩ | hredundant⟩ := is_global_eq_false_iff.mp hglobal
  · -- the earlier implication: a path from the pointstamp would go back in time
    have hcovers := hstable.covers_of_not_through hstable' hmono hwf hothers hlower
      fun hpath => absurd (Builder.le_of_path hpath) (not_le_of_gt hlt)
    exact hcovers.mono hlt.le
  · -- two reasons: one of them is a step, from a place that no path through here reaches
    have hsupport : 0 < tracker.support location time := by
      have hbalance := hquiet.balance location time
      rw [hquiet.worklist_nil, tally_nil, add_zero] at hbalance
      have hsplit : (if time ∈ (tracker.pointstamps_at location).frontier then (1 : ℤ) else 0) ≤ 1 := by
        split <;> decide
      omega
    obtain ⟨origin, start, hstart, hstep⟩ := support_pos_iff.mp hsupport
    have hcovers := hstable.covers_of_not_through hstable' hmono hwf hothers hstart
      fun hpath => (hwf.transGen.irrefl.irrefl _) (Relation.TransGen.tail' hpath hstep)
    exact hstable'.covers_step hmono hcovers hstep

/-- Where `is_global` is false, setting the count to zero leaves every frontier as it was. -/
theorem frontier_zeroed [Finite T] {tracker after : Tracker S T} {rank : Location → ℕ}
    {bound : ℕ} {location : Location} {time : T} (hquiet : tracker.Quiet)
    (hranked : tracker.builder.Ranked rank bound) (hdrained : tracker.Drained)
    (hglobal : tracker.is_global location time = some false)
    (h : (tracker.zeroed location time).Propagates after) (other : Location) (result : T) :
    result ∈ (after.implications_at other).frontier ↔
      result ∈ (tracker.implications_at other).frontier := by
  have hpropagated := h.propagated (hquiet.update location time _).toBalanced
  have hbuilder : after.builder = tracker.builder :=
    hpropagated.builder.trans (builder_update _ _ _ _)
  have hcount := h.count_zeroed hquiet hdrained
  have hstable := hquiet.stable
  have hstable' := hpropagated.quiet.stable
  rw [hbuilder] at hstable'
  have hmono : StepMonotone (tracker.builder.step (T := T)) := tracker.builder.step_monotone
  have hwf : WellFounded (tracker.builder.step (T := T)) := hranked.wellFounded
  have hkept : ∀ origin start, start ∈ (tracker.pointstamps_at origin).frontier →
      (origin, start) ≠ (location, time) →
      Covers (fun place => (after.implications_at place).frontier) origin start := by
    intro origin start hstart hne
    have hpos := (hquiet.pointstamps origin).frontier.present_of_mem start hstart
    have hafter : 0 < (after.pointstamps_at origin).count_for start := by
      rw [hcount, if_neg (Ne.symm hne)]
      exact hpos
    obtain ⟨least, hleast, hle⟩ :=
      (hpropagated.quiet.pointstamps origin).frontier.covers start hafter
    exact (hstable'.covers_seed hleast).mono hle
  refine hstable.mem_iff_of_covers_seeds hstable' hmono hwf ?_ ?_ other result
  · intro origin start hstart
    by_cases heq : (origin, start) = (location, time)
    · obtain ⟨rfl, rfl⟩ := Prod.mk.inj heq
      exact covers_of_not_global hquiet hranked hpropagated.quiet hbuilder hglobal hkept
    · exact hkept origin start hstart heq
  · intro origin start hstart
    have hpos := (hpropagated.quiet.pointstamps origin).frontier.present_of_mem start hstart
    have hbefore : 0 < (tracker.pointstamps_at origin).count_for start := by
      rw [hcount] at hpos
      split at hpos
      · exact absurd hpos (lt_irrefl 0)
      · exact hpos
    obtain ⟨least, hleast, hle⟩ := (hquiet.pointstamps origin).frontier.covers start hbefore
    exact (hstable.covers_seed hleast).mono hle

/-- In a ranked graph zeroing a count returns. -/
theorem exists_propagates_zeroed [Finite T] {tracker : Tracker S T} {rank : Location → ℕ}
    {bound : ℕ} {location : Location} {time : T} (hquiet : tracker.Quiet)
    (hranked : tracker.builder.Ranked rank bound) (hprepared : tracker.Prepared)
    (hlocation : tracker.builder.has_location location = true) :
    ∃ after, (tracker.zeroed location time).Propagates after := by
  have hranked' : (tracker.zeroed location time).builder.Ranked rank bound := by
    rwa [zeroed, builder_update]
  refine exists_propagates (hquiet.update location time _) hranked' ?_
  obtain ⟨node, port⟩ := location
  have hupdated : ∀ call : Call T, call.Valid tracker.builder →
      Performs tracker call (tracker.zeroed ⟨node, port⟩ time) →
      (tracker.zeroed ⟨node, port⟩ time).Prepared :=
    fun call hvalid hperforms => hprepared.performs hquiet.toBalanced hvalid hperforms
  cases port with
  | target port =>
    refine hupdated _ ?_ (Performs.update_target ⟨node, port⟩ time _)
    rintro update ⟨⟩
    exact hlocation
  | source port =>
    refine hupdated _ ?_ (Performs.update_source ⟨node, port⟩ time _)
    rintro update ⟨⟩
    exact hlocation

/-- A tracker that has just propagated finds every index it will use. -/
theorem Prepared.of_run_propagate_all [PartialOrder S] [DecidableLE S] {builder : Builder S}
    {rank : Location → ℕ} {bound : ℕ} (hranked : builder.Ranked rank bound)
    {allocated tracker : Tracker S T} (hallocated : Allocated builder allocated)
    {calls : List (Call T)} (hrun : Run Performs allocated (calls ++ [.propagate_all]) tracker) :
    tracker.Prepared := by
  have hfits : ∀ {calls : List (Call T)} {tracker : Tracker S T},
      Run Performs allocated calls tracker → tracker.Fits := by
    intro calls tracker hrun
    induction hrun with
    | nil => exact hallocated.fits hranked
    | snoc hbefore hlast ih =>
      cases hlast with
      | update_target => exact ih
      | update_source => exact ih
      | propagate_all hpropagates =>
        exact ih.propagates (Tracking.of_run hallocated hbefore).quiet.toBalanced hpropagates
  obtain ⟨before, hbefore, hlast⟩ := hrun.of_snoc
  cases hlast with
  | propagate_all hpropagates =>
    obtain ⟨htargets, hsources⟩ := hpropagates.buffers_eq_new
      (Tracking.of_run hallocated hbefore).quiet.toBalanced
    refine ⟨hfits hrun, ⟨?_, ?_⟩⟩
    · rw [htargets]
      exact fun change hchange => absurd hchange List.not_mem_nil
    · rw [hsources]
      exact fun change hchange => absurd hchange List.not_mem_nil

end Global

end Tracker

/-! ### Demand mode -/

namespace Subgraph

variable {O S TOuter TInner : Type}
  [PartialOrder TOuter] [DecidableLE TOuter] [DecidableEq TOuter] [Ord TOuter]
  [LinearExtension TOuter]
  [PartialOrder TInner] [DecidableLE TInner] [DecidableEq TInner] [Ord TInner]
  [LinearExtension TInner] [Refines TOuter TInner] [PathSummary S TInner]

/-- What is not sent although some of it is a subtraction is not global there. -/
theorem is_global_of_withheld {subgraph after : Subgraph O S TOuter TInner}
    (hsend : subgraph.send_progress = some ([], after)) {change : (Location × TInner) × ℤ}
    (hchange : change ∈ subgraph.local_pointstamp.iter.1) (hnegative : change.2 < 0) :
    subgraph.pointstamp_tracker.is_global change.1.1 change.1.2 = some false := by
  obtain ⟨must_send, hmust, heq⟩ := Option.map_eq_some_iff.mp hsend
  split at heq
  case isTrue =>
    -- all is sent, and that is not nothing
    have hnil : subgraph.local_pointstamp.iter.1 = [] := (Prod.mk.inj heq).1
    rw [hnil] at hchange
    cases hchange
  case isFalse hfalse =>
    rw [Bool.not_eq_true] at hfalse
    subst hfalse
    unfold must_send at hmust
    split at hmust
    · cases hmust
    · have hall := anyM_eq_some_false hmust change hchange
      obtain ⟨is_global, hglobal, hvalue⟩ := Option.map_eq_some_iff.mp hall
      rw [decide_eq_true hnegative, Bool.and_true] at hvalue
      rw [hglobal, hvalue]

/-- Propagating leaves the tracker at rest and drained, over the same graph. -/
theorem Propagates.drained {subgraph after : Subgraph O S TOuter TInner}
    (hquiet : subgraph.pointstamp_tracker.Quiet) (h : subgraph.Propagates after) :
    after.pointstamp_tracker.builder = subgraph.pointstamp_tracker.builder ∧
      after.pointstamp_tracker.Drained := by
  obtain ⟨committed, propagated, delivered, hstages⟩ := h.stages
  have hcounted := hstages.counted hquiet
  constructor
  · rw [hstages.same.builder, hcounted.builder]
    exact (committed_of_commit_pointstamps hstages.commit).same.builder
  · intro location time
    exact (hstages.buffered location time).trans (hcounted.buffered location time)

section Runs

variable [Operate O TInner] [PartialOrder S] [DecidableLE S]

theorem builder_of_run {topology : Builder S} {built last : Subgraph O S TOuter TInner}
    (hbuilt : SubgraphBuilder.Built topology built) {events : List (ScopeEvent TOuter TInner)}
    (hrun : Run ScopeStep built events last) :
    last.pointstamp_tracker.builder = topology := by
  induction hrun with
  | nil => exact hbuilt.allocated.fresh.builder_eq
  | snoc hbefore hlast ih =>
    rcases hlast.kept with ⟨_, hpropagates⟩ | ⟨_, rfl⟩ | ⟨_, hkept⟩
    · exact (hpropagates.drained (Reporting.of_run hbuilt hbefore).quiet).1.trans ih
    · exact ih
    · exact hkept.same.builder.trans ih

/-- Activating children leaves the tracker as it is. -/
theorem tracker_of_activations {subgraph last : Subgraph O S TOuter TInner} {activated : List ℕ}
    (hrun : Run ScopeStep subgraph (activated.map ScopeEvent.activate_child) last) :
    last.pointstamp_tracker = subgraph.pointstamp_tracker := by
  induction activated using List.reverseRecOn generalizing last with
  | nil => rw [hrun.eq_of_nil]
  | append_singleton activated index ih =>
    rw [List.map_append] at hrun
    obtain ⟨middle, hmiddle, hlast⟩ := hrun.of_snoc
    cases hlast with
    | activate_child hactivate =>
      exact (untracked_of_activate_child hactivate).tracker.trans (ih hmiddle)

/-- In a graph that `is_acyclic` accepts, where `is_global` is false the count may be set to
    zero and propagated, and no frontier changes.  So whatever `send_progress` withholds, at
    the end of a round of scheduling, no subtraction in it could move a frontier by itself. -/
theorem is_global_sound [Finite TInner] [DecidableEq S] [AdvancingSummary S TInner]
    (builder : SubgraphBuilder O S TOuter TInner) (iteration : IterationOrder Location) :
    (∀ {topology : Builder S} {allocated tracker : Tracker S TInner} {calls : List (Call TInner)}
      {location : Location} {time : TInner}, topology.is_acyclic iteration = some true →
      Tracker.Allocated topology allocated →
      Run Tracker.Performs allocated (calls ++ [.propagate_all]) tracker →
      tracker.is_global location time = some false →
      (∃ after, (tracker.zeroed location time).Propagates after) ∧
        ∀ after, (tracker.zeroed location time).Propagates after → ∀ other result,
          result ∈ (after.implications_at other).frontier ↔
            result ∈ (tracker.implications_at other).frontier) ∧
    (∀ {order : IterationOrder ℕ} {eager : Bool} {fuel : ℕ}
      {built before propagated last after : Subgraph O S TOuter TInner}
      {events : List (ScopeEvent TOuter TInner)} {activated : List ℕ},
      builder.build order eager fuel = some built →
      built.pointstamp_tracker.builder.is_acyclic iteration = some true →
      Run ScopeStep built events before → before.Propagates propagated →
      Run ScopeStep propagated (activated.map ScopeEvent.activate_child) last →
      last.send_progress = some ([], after) →
      ∀ change ∈ last.local_pointstamp.iter.1, change.2 < 0 → ∀ zeroed,
        (last.pointstamp_tracker.zeroed change.1.1 change.1.2).Propagates zeroed →
        ∀ other result, result ∈ (zeroed.implications_at other).frontier ↔
          result ∈ (last.pointstamp_tracker.implications_at other).frontier) := by
  constructor
  · intro topology allocated tracker calls location time hacyclic hallocated hrun hglobal
    obtain ⟨rank, bound, hranked⟩ := Builder.ranked_of_is_acyclic hacyclic
    have htracking := Tracker.Tracking.of_run hallocated hrun
    have hranked' : tracker.builder.Ranked rank bound := by rwa [htracking.builder_eq]
    have hdrained : tracker.Drained := by
      obtain ⟨middle, hmiddle, hlast⟩ := hrun.of_snoc
      cases hlast with
      | propagate_all hpropagates =>
        exact (hpropagates.propagated
          (Tracker.Tracking.of_run hallocated hmiddle).quiet.toBalanced).buffered
    constructor
    · exact Tracker.exists_propagates_zeroed htracking.quiet hranked'
        (Tracker.Prepared.of_run_propagate_all hranked hallocated hrun)
        (Tracker.is_global_eq_false_iff.mp hglobal).1
    · intro after hafter
      exact Tracker.frontier_zeroed htracking.quiet hranked' hdrained hglobal hafter
  · intro order eager fuel built before propagated last after events activated hbuild
      hacyclic hrun hpropagates hactivations hsend change hchange hnegative zeroed hzeroed
    obtain ⟨topology, hbuilt⟩ := SubgraphBuilder.built_of_build hbuild
    obtain ⟨rank, bound, hranked⟩ := Builder.ranked_of_is_acyclic hacyclic
    have hquiet := (Reporting.of_run hbuilt hrun).quiet
    obtain ⟨hbuilder, hdrained⟩ := hpropagates.drained hquiet
    have hquiet' := ((Reporting.of_run hbuilt hrun).propagates hpropagates).quiet
    have hglobal := is_global_of_withheld hsend hchange hnegative
    have htracker := tracker_of_activations hactivations
    rw [htracker] at hglobal hzeroed ⊢
    have hranked' : propagated.pointstamp_tracker.builder.Ranked rank bound := by
      rw [hbuilder, builder_of_run hbuilt hrun, ← hbuilt.allocated.fresh.builder_eq]
      exact hranked
    exact Tracker.frontier_zeroed hquiet' hranked' hdrained hglobal hzeroed

end Runs

/-! ### An example -/

/-- A scope over 64-bit times whose children do nothing. -/
abbrev DemandScope := Subgraph (Idle (Unsigned 64)) (Unsigned 64) (Unsigned 64) (Unsigned 64)

/-- A scope in demand mode with one input, which feeds the first of six children. -/
def demand_scope_builder :
    SubgraphBuilder (Idle (Unsigned 64)) (Unsigned 64) (Unsigned 64) (Unsigned 64) :=
  ((((((((SubgraphBuilder.new_from 1).new_input ChangeBatch.new).2.add_child
    (idle_child 1 1 0 [[]])).add_child (idle_child 2 0 0 [])).add_child
    (idle_child 3 0 0 [])).add_child (idle_child 4 0 0 [])).add_child (idle_child 5 0 0 [])).add_child
    (idle_child 6 0 0 [])).connect ⟨0, 0⟩ ⟨1, 0⟩

def demand_scope : DemandScope :=
  (demand_scope_builder.build IterationOrder.listed false 20).get (by decide)

/-- The frontier outside is at three. -/
def demand_frontiers : List (ChangeBatch (Unsigned 64)) :=
  (update_at demand_scope.shared_progress.frontiers 0 3 1).get (by decide)

def demand_scope_told : DemandScope :=
  Subgraph.accept_frontier
    { demand_scope with
      shared_progress := { demand_scope.shared_progress with frontiers := demand_frontiers } }

/-- A message has entered at five. -/
def demand_messages : List (ChangeBatch (Unsigned 64)) :=
  (update_at demand_scope_told.input_messages 0 5 1).get (by decide)

def demand_scope_entered : DemandScope :=
  (Subgraph.harvest_inputs { demand_scope_told with input_messages := demand_messages }).get (by decide)

def demand_scope_after : DemandScope :=
  (demand_scope_entered.propagate_pointstamps 20).get (by decide)

/-- A time that is dominated by an earlier one upstream. -/
def dominated_calls : List (Call (Unsigned 64)) :=
  [.update_source ⟨0, 0⟩ 17 1, .update_source ⟨1, 0⟩ 18 1]

def dominated_tracker : Tracker (Unsigned 64) (Unsigned 64) :=
  (((Tracker.example_tracker.update_source ⟨0, 0⟩ 17 1).update_source ⟨1, 0⟩ 18 1).propagate_all
    20).get (by decide)

theorem is_global_sound_example :
    (∃ after, (dominated_tracker.zeroed (Location.new_source 1 0) 18).Propagates after) ∧
      ∀ zeroed, (demand_scope_after.pointstamp_tracker.zeroed (Location.new_source 0 0) 5).Propagates
        zeroed → ∀ other result, result ∈ (zeroed.implications_at other).frontier ↔
          result ∈ (demand_scope_after.pointstamp_tracker.implications_at other).frontier := by
  have hsound := is_global_sound demand_scope_builder IterationOrder.listed
  constructor
  · have hrun : Run Tracker.Performs Tracker.example_tracker
        (dominated_calls ++ [.propagate_all]) dominated_tracker :=
      ((Run.nil.snoc (Tracker.Performs.update_source ⟨0, 0⟩ 17 1)).snoc
        (Tracker.Performs.update_source ⟨1, 0⟩ 18 1)).snoc
          (Tracker.Performs.propagate_all ⟨20, (Option.some_get _).symm⟩)
    exact (hsound.1 Tracker.example_is_acyclic Tracker.example_allocated hrun (by decide)).1
  · have hrun : Run ScopeStep demand_scope
        [.outer_frontier 0 3 1, .accept_frontier, .enter 0 5 1, .harvest_inputs] demand_scope_entered :=
      (((Run.nil.snoc (ScopeStep.outer_frontier (Option.some_get _).symm)).snoc
        ScopeStep.accept_frontier).snoc (ScopeStep.enter (Option.some_get _).symm)).snoc
          (ScopeStep.harvest_inputs (Option.some_get _).symm)
    have hwithheld : demand_scope_after.send_progress.map Prod.fst = some [] := by decide
    obtain ⟨⟨sent, after⟩, hsend, rfl⟩ := Option.map_eq_some_iff.mp hwithheld
    have hnone : Run ScopeStep demand_scope_after (([] : List ℕ).map ScopeEvent.activate_child)
        demand_scope_after := Run.nil
    exact hsound.2 (Option.some_get _).symm (by decide) hrun ⟨20, (Option.some_get _).symm⟩
      hnone hsend ((Location.new_source 0 0, 5), -1) (by decide) (by decide)

end Subgraph

end Timely
