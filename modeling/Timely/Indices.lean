/-
  Timely/Indices.lean
  ===================
  **The indices of a subgraph exist.**

  One statement for each method: in a wired subgraph whose changes are all at
  locations of its graph the method goes through, and leaves such a subgraph.
  Where a method may fail for another reason, the statement says so.
-/
import Timely.Wiring
import Timely.SubgraphFrame

set_option linter.unusedSectionVars false

namespace Timely

open Library

namespace Subgraph

variable {O S TOuter TInner : Type}
  [PartialOrder TOuter] [DecidableLE TOuter] [DecidableEq TOuter] [Ord TOuter]
  [LinearExtension TOuter]
  [PartialOrder TInner] [DecidableLE TInner] [DecidableEq TInner] [Ord TInner]
  [LinearExtension TInner] [Refines TOuter TInner] [PathSummary S TInner]

/-- All numbers in the layout of a subgraph refer to something, and so do all that its changes and
    activations bring in. -/
structure Indexed (topology : Builder S) (subgraph : Subgraph O S TOuter TInner) : Prop where
  wired : Wired topology subgraph.layout
  builder_eq : subgraph.pointstamp_tracker.builder = topology
  ready : subgraph.pointstamp_tracker.Ready
  outputs : subgraph.pointstamp_tracker.output_changes.length = subgraph.outputs
  locals : subgraph.local_pointstamp.KeysIn topology.HasKey
  final : subgraph.final_pointstamp.KeysIn topology.HasKey
  active : ∀ index ∈ subgraph.temp_active, index < topology.shape.length
  silent : ∀ (index : ℕ) (child : PerOperatorState O S TInner), subgraph.children[index]? = some child →
    index ∈ subgraph.wrapper_ghost → child.shared_progress.Silent

namespace Indexed

variable {topology : Builder S} {subgraph : Subgraph O S TOuter TInner}

theorem nodes (h : Indexed topology subgraph) : topology.shape.length = subgraph.children.length :=
  h.wired.nodes.trans (List.length_map _)

theorem child (h : Indexed topology subgraph) {index : ℕ} {child : PerOperatorState O S TInner}
    (hchild : subgraph.children[index]? = some child) :
    WiredChild topology subgraph.layout index child.wiring := by
  apply h.wired.child
  unfold layout
  rw [List.getElem?_map, hchild, Option.map_some]

theorem exists_child (h : Indexed topology subgraph) {index : ℕ} (hindex : index < topology.shape.length) :
    ∃ child, subgraph.children[index]? = some child := by
  rw [h.nodes] at hindex
  exact ⟨_, List.getElem?_eq_getElem hindex⟩

/-- The ports of child zero are those of the scope. -/
theorem outer_target (h : Indexed topology subgraph) {port : ℕ} :
    topology.has_location (Location.new_target 0 port) = true ↔ port < subgraph.outputs :=
  Builder.has_target_iff h.wired.scope

theorem outer_source (h : Indexed topology subgraph) {port : ℕ} :
    topology.has_location (Location.new_source 0 port) = true ↔ port < subgraph.inputs :=
  Builder.has_source_iff h.wired.scope

/-- Replacing a child by one that is wired in the same way. -/
theorem set_child (h : Indexed topology subgraph) {index : ℕ} {child changed : PerOperatorState O S TInner}
    (hchild : subgraph.children[index]? = some child) (hwiring : changed.wiring = child.wiring)
    (hsilent : index ∈ subgraph.wrapper_ghost → changed.shared_progress.Silent) :
    Indexed topology { subgraph with children := subgraph.children.set index changed } where
  wired := by
    have hlayout : layout { subgraph with children := subgraph.children.set index changed } =
        subgraph.layout := by
      unfold layout
      simp only [map_set_of_eq hchild hwiring]
    rw [hlayout]
    exact h.wired
  builder_eq := h.builder_eq
  ready := h.ready
  outputs := h.outputs
  locals := h.locals
  final := h.final
  active := h.active
  silent other found hfound hwrapper := by
    rcases Builder.getElem?_set_cases hfound with ⟨rfl, rfl⟩ | ⟨_, hold⟩
    · exact hsilent hwrapper
    · exact h.silent other found hold hwrapper

/-- Changes in what neither the layout nor the tracker is about. -/
theorem with_tracker (h : Indexed topology subgraph) {tracker : Tracker S TInner} (hready : tracker.Ready)
    (hsame : Tracker.SameGraph subgraph.pointstamp_tracker tracker) :
    Indexed topology { subgraph with pointstamp_tracker := tracker } :=
  ⟨h.wired, hsame.builder.trans h.builder_eq, hready, hsame.outputs.trans h.outputs, h.locals, h.final,
    h.active, h.silent⟩

theorem with_active (h : Indexed topology subgraph) {active : List ℕ}
    (hactive : ∀ index ∈ active, index < topology.shape.length) :
    Indexed topology { subgraph with temp_active := active } :=
  ⟨h.wired, h.builder_eq, h.ready, h.outputs, h.locals, h.final, hactive, h.silent⟩

theorem with_shared (h : Indexed topology subgraph) {shared_progress : SharedProgress TOuter}
    (hports : shared_progress.ports = subgraph.shared_progress.ports) :
    Indexed topology { subgraph with shared_progress := shared_progress } where
  wired := by
    have hlayout : layout { subgraph with shared_progress := shared_progress } = subgraph.layout := by
      unfold layout
      simp only [hports]
    rw [hlayout]
    exact h.wired
  builder_eq := h.builder_eq
  ready := h.ready
  outputs := h.outputs
  locals := h.locals
  final := h.final
  active := h.active
  silent := h.silent

theorem with_pointstamps (h : Indexed topology subgraph)
    {local_pointstamp final_pointstamp : ChangeBatch (Location × TInner)}
    (hlocal : local_pointstamp.KeysIn topology.HasKey)
    (hfinal : final_pointstamp.KeysIn topology.HasKey) :
    Indexed topology { subgraph with
      local_pointstamp := local_pointstamp
      final_pointstamp := final_pointstamp } :=
  ⟨h.wired, h.builder_eq, h.ready, h.outputs, hlocal, hfinal, h.active, h.silent⟩

theorem with_input_messages (h : Indexed topology subgraph) {input_messages : List (ChangeBatch TInner)}
    (hlength : input_messages.length = subgraph.input_messages.length) :
    Indexed topology { subgraph with input_messages := input_messages } where
  wired := by
    have hlayout : layout { subgraph with input_messages := input_messages } = subgraph.layout := by
      unfold layout
      simp only [hlength]
    rw [hlayout]
    exact h.wired
  builder_eq := h.builder_eq
  ready := h.ready
  outputs := h.outputs
  locals := h.locals
  final := h.final
  active := h.active
  silent := h.silent

/-! ### From the parent and the inputs -/

theorem accept_frontier (h : Indexed topology subgraph) : Indexed topology subgraph.accept_frontier := by
  have hchanges : ∀ change ∈ subgraph.shared_progress.frontiers.zipIdx.flatMap fun changes =>
      changes.1.drain.1.map fun change => (changes.2, change),
      topology.has_location (Location.new_source 0 change.1) = true := by
    intro change hchange
    obtain ⟨⟨batch, input⟩, hbatch, hmem⟩ := List.mem_flatMap.mp hchange
    obtain ⟨_, _, rfl⟩ := List.mem_map.mp hmem
    have hinput : input < subgraph.shared_progress.frontiers.length :=
      (List.getElem?_eq_some_iff.mp (List.mem_zipIdx_iff_getElem?.mp hbatch)).1
    exact h.outer_source.mpr (hinput.trans_eq h.wired.frontiers)
  unfold Subgraph.accept_frontier
  generalize (subgraph.shared_progress.frontiers.zipIdx.flatMap fun changes =>
    changes.1.drain.1.map fun change => (changes.2, change)) = changes at hchanges
  have hfold : ∀ tracker : Tracker S TInner, tracker.Ready →
      Tracker.SameGraph subgraph.pointstamp_tracker tracker →
      Tracker.Ready (changes.foldl (fun tracker change =>
        tracker.update_source ⟨0, change.1⟩ (Refines.to_inner change.2.1) change.2.2) tracker) ∧
      Tracker.SameGraph subgraph.pointstamp_tracker (changes.foldl (fun tracker change =>
        tracker.update_source ⟨0, change.1⟩ (Refines.to_inner change.2.1) change.2.2) tracker) := by
    induction changes with
    | nil => exact fun tracker hready hsame => ⟨hready, hsame⟩
    | cons change changes ih =>
      intro tracker hready hsame
      have hlocation : tracker.builder.has_location (Location.new_source 0 change.1) = true := by
        rw [hsame.builder, h.builder_eq]
        exact hchanges change List.mem_cons_self
      obtain ⟨hnext, hnextSame⟩ := hready.update hlocation (Refines.to_inner change.2.1) change.2.2
      exact ih (fun other hother => hchanges other (List.mem_cons_of_mem _ hother)) _ hnext
        (hsame.trans hnextSame)
  obtain ⟨hready, hsame⟩ := hfold _ h.ready (Tracker.SameGraph.refl _)
  refine (h.with_tracker hready hsame).with_shared ?_
  simp only [SharedProgress.ports, length_drained]

theorem exists_harvest_inputs (h : Indexed topology subgraph) :
    ∃ after, subgraph.harvest_inputs = some after ∧ Indexed topology after := by
  have hzero : 0 < topology.shape.length := by
    rw [h.wired.nodes]
    exact Nat.lt_of_lt_of_le (by decide) h.wired.seven
  obtain ⟨outer, houter⟩ := h.exists_child hzero
  have hinputs : subgraph.inputs ≤ outer.ghost_edges.length := by
    refine h.wired.outer outer.wiring ?_
    unfold layout
    rw [List.getElem?_map, houter, Option.map_some]
  have hlength : subgraph.input_messages.length = subgraph.inputs := h.wired.input_messages
  obtain ⟨pointstamps, hpointstamps, hkeys⟩ : ∃ pointstamps, drain_all subgraph.input_messages
      (harvest_input outer.ghost_edges) subgraph.local_pointstamp = some pointstamps ∧
      pointstamps.KeysIn topology.HasKey := by
    refine exists_drain_all _ _ h.locals ?_
    intro input batch change pointstamps hbatch _ hbefore
    have hinput : input < subgraph.inputs := hlength ▸ (List.getElem?_eq_some_iff.mp hbatch).1
    obtain ⟨targets, htargets⟩ : ∃ targets, outer.ghost_edges[input]? = some targets :=
      ⟨_, List.getElem?_eq_getElem (hinput.trans_le hinputs)⟩
    have hfold := hbefore.foldl_update (targets.map fun target =>
      ((Location.from_target target, change.1), change.2)) (by
        intro update hupdate
        obtain ⟨target, htarget, rfl⟩ := List.mem_map.mp hupdate
        exact (h.child houter).ghost_edges _ (List.mem_of_getElem? htargets) target htarget)
    rw [List.foldl_map] at hfold
    unfold harvest_input
    rw [htargets, Option.map_some]
    exact ⟨_, rfl, hfold.update _ _ (h.outer_source.mpr hinput)⟩
  unfold harvest_inputs
  simp only [houter, if_pos hlength, hpointstamps, Option.map_some]
  exact ⟨_, rfl, (h.with_pointstamps hkeys h.final).with_input_messages (length_drained _)⟩

/-- Changes at locations of the graph may be received. -/
theorem receive (h : Indexed topology subgraph) {changes : List ((Location × TInner) × ℤ)}
    (hchanges : ∀ change ∈ changes, topology.has_location change.1.1 = true) :
    Indexed topology (subgraph.receive changes) :=
  h.with_pointstamps h.locals (h.final.foldl_update changes hchanges)

/-! ### Committing -/

theorem exists_commit_pointstamp (h : Indexed topology subgraph) {change : (Location × TInner) × ℤ}
    (hchange : topology.HasKey change.1) :
    ∃ after, subgraph.commit_pointstamp change = some after ∧ Indexed topology after := by
  obtain ⟨⟨⟨node, port⟩, time⟩, delta⟩ := change
  by_cases hnode : node = 0
  · -- a statement about child zero is at a port of the scope
    subst hnode
    cases port with
    | source port =>
      have hport : port < subgraph.shared_progress.consumeds.length :=
        (h.outer_source.mp hchange).trans_eq h.wired.consumeds.symm
      obtain ⟨consumeds, hconsumeds, hlength⟩ := exists_update_at hport (Refines.to_outer time) (-delta)
      simp only [commit_pointstamp, if_true, hconsumeds, Option.map_some]
      refine ⟨_, rfl, h.with_shared ?_⟩
      simp only [SharedProgress.ports, hlength]
    | target port =>
      have hport : port < subgraph.shared_progress.produceds.length :=
        (h.outer_target.mp hchange).trans_eq h.wired.produceds.symm
      obtain ⟨produceds, hproduceds, hlength⟩ := exists_update_at hport (Refines.to_outer time) delta
      simp only [commit_pointstamp, if_true, hproduceds, Option.map_some]
      refine ⟨_, rfl, h.with_shared ?_⟩
      simp only [SharedProgress.ports, hlength]
  · simp only [commit_pointstamp, if_neg hnode]
    have hlocation : subgraph.pointstamp_tracker.builder.has_location ⟨node, port⟩ = true := by
      rw [h.builder_eq]
      exact hchange
    obtain ⟨hready, hsame⟩ := h.ready.update hlocation time delta
    exact ⟨_, rfl, h.with_tracker hready hsame⟩

theorem exists_commit_pointstamps (h : Indexed topology subgraph) :
    ∃ after, subgraph.commit_pointstamps = some after ∧ Indexed topology after := by
  refine exists_foldlM (P := Indexed topology)
    (h.with_pointstamps h.locals (ChangeBatch.keysIn_new _)) ?_
  intro before change hmem hbefore
  exact hbefore.exists_commit_pointstamp (h.final.compact change hmem)

/-! ### Delivering -/

theorem exists_deliver_change {state : Subgraph O S TOuter TInner × Bool} (h : Indexed topology state.1)
    {change : (Location × TInner) × ℤ} (hchange : topology.HasKey change.1) :
    ∃ next, deliver_change state change = some next ∧ Indexed topology next.1 := by
  obtain ⟨⟨⟨node, port⟩, time⟩, diff⟩ := change
  cases port with
  | source port => exact ⟨state, rfl, h⟩
  | target port =>
    have hnode : node < topology.shape.length := Builder.node_lt_of_has_location hchange
    obtain ⟨child, hchild⟩ := h.exists_child hnode
    simp only [deliver_change, hchild]
    have hnotified : ∀ index ∈ (if child.notify = true then activate state.1.temp_active node
        else state.1.temp_active), index < topology.shape.length := by
      split
      · exact active_activate h.active hnode
      · exact h.active
    generalize (if child.notify = true then activate state.1.temp_active node
      else state.1.temp_active) = notified at hnotified
    cases hlookup : state.1.ghost_wrapper.lookup node with
    | none =>
      have hport : port < child.shared_progress.frontiers.length := (h.child hchild).frontiers port hchange
      obtain ⟨frontiers, hfrontiers, hlength⟩ := exists_update_at hport time diff
      simp only [modify_child, hchild, push_frontier, hfrontiers, Option.map_some]
      refine ⟨_, rfl, (h.with_active hnotified).set_child hchild ?_ fun hwrapper => ?_⟩
      · simp only [PerOperatorState.wiring, SharedProgress.ports, hlength]
      · have hsilent := h.silent node child hchild hwrapper
        exact ⟨hsilent.consumeds, hsilent.internals, hsilent.produceds⟩
    | some wrapper =>
      -- a ghost: its wrapper keeps batches for it
      obtain ⟨wiring, hwiring, count, hcount, hports⟩ := h.wired.wrapped node wrapper hlookup
      unfold layout at hwiring
      rw [List.getElem?_map] at hwiring
      obtain ⟨holder, hholder, rfl⟩ := Option.map_eq_some_iff.mp hwiring
      obtain ⟨before, hbefore, rfl⟩ := Option.map_eq_some_iff.mp hcount
      obtain ⟨frontiers, hfrontiers, hlength⟩ := exists_update_at (hports port hchange) time diff
      have hwrapper : wrapper < topology.shape.length := by
        rw [h.nodes]
        exact (List.getElem?_eq_some_iff.mp hholder).1
      have hactive : ∀ index ∈ (if (state.2 || child.notify) = true then notified
          else activate notified wrapper), index < topology.shape.length := by
        split
        · exact hnotified
        · exact active_activate hnotified hwrapper
      simp only [modify_child, hholder, push_wrapper_frontier, hbefore, hfrontiers, Option.map_some]
      refine ⟨_, rfl, (h.with_active hactive).set_child hholder ?_ fun hmem => ?_⟩
      · simp only [PerOperatorState.wiring, SharedProgress.ports, batch_counts_insert hbefore hlength]
      · have hsilent := h.silent wrapper holder hholder hmem
        exact ⟨hsilent.consumeds, hsilent.internals, hsilent.produceds⟩

theorem exists_deliver_changes (h : Indexed topology subgraph) :
    ∃ after, subgraph.deliver_changes = some after ∧ Indexed topology after := by
  have hstart : Indexed topology { subgraph with
      pointstamp_tracker :=
        { subgraph.pointstamp_tracker with
          pushed_changes := subgraph.pointstamp_tracker.pushed_changes.drain.2 } } :=
    h.with_tracker (h.ready.with_pushed (ChangeBatch.keysIn_new _)) ⟨rfl, rfl⟩
  have hpushed : subgraph.pointstamp_tracker.pushed_changes.KeysIn topology.HasKey := by
    have hkeys := h.ready.pushed
    rwa [h.builder_eq] at hkeys
  obtain ⟨last, hlast, hend⟩ : ∃ last, subgraph.pointstamp_tracker.pushed_changes.drain.1.foldlM
      deliver_change ({ subgraph with
        pointstamp_tracker :=
          { subgraph.pointstamp_tracker with
            pushed_changes := subgraph.pointstamp_tracker.pushed_changes.drain.2 } }, false) = some last ∧
      Indexed topology last.1 := by
    refine exists_foldlM (P := fun state : Subgraph O S TOuter TInner × Bool => Indexed topology state.1)
      hstart ?_
    intro before change hmem hbefore
    exact exists_deliver_change hbefore (hpushed.compact change hmem)
  unfold deliver_changes
  rw [hlast, Option.map_some]
  exact ⟨_, rfl, hend⟩

/-! ### Reporting -/

theorem exists_report_output (h : Indexed topology subgraph) {output : ℕ}
    (houtput : output < subgraph.outputs) :
    ∃ after, subgraph.report_output output = some after ∧ Indexed topology after ∧
      after.outputs = subgraph.outputs := by
  have hcapabilities : subgraph.output_capabilities.length = subgraph.outputs := h.wired.output_capabilities
  unfold report_output
  rw [List.getElem?_eq_getElem (h.outputs.symm ▸ houtput),
    List.getElem?_eq_getElem (hcapabilities.symm ▸ houtput)]
  refine ⟨_, rfl, ⟨?_, h.builder_eq, h.ready.with_outputs (List.length_set ..),
    (List.length_set ..).trans h.outputs, h.locals, h.final, h.active, h.silent⟩, rfl⟩
  have hwired := h.wired
  unfold layout SharedProgress.ports at hwired ⊢
  simpa only [List.length_set, List.length_modify] using hwired

theorem exists_report_outputs (h : Indexed topology subgraph) :
    ∃ after, subgraph.report_outputs = some after ∧ Indexed topology after := by
  obtain ⟨after, hafter, hindexed, -⟩ : ∃ after, subgraph.report_outputs = some after ∧
      Indexed topology after ∧ after.outputs = subgraph.outputs := by
    refine exists_foldlM (P := fun after => Indexed topology after ∧ after.outputs = subgraph.outputs)
      ⟨h, rfl⟩ ?_
    rintro before output hmem ⟨hbefore, hsame⟩
    have houtput : output < before.outputs := by
      rw [hsame]
      exact (List.mem_range.mp hmem).trans_eq h.wired.internals
    obtain ⟨after, hafter, hindexed, houtputs⟩ := hbefore.exists_report_output houtput
    exact ⟨after, hafter, hindexed, houtputs.trans hsame⟩
  exact ⟨after, hafter, hindexed⟩

/-! ### Propagating -/

theorem print_children_eq (h : Indexed topology subgraph) : subgraph.print_children = some subgraph := by
  have hseven : 7 ≤ subgraph.children.length := h.wired.seven.trans_eq (List.length_map _)
  unfold print_children
  rw [if_pos hseven]

/-! ### Sending -/

theorem exists_anyM {α : Type} {list : List α} {test : α → Option Bool}
    (h : ∀ item ∈ list, ∃ outcome, test item = some outcome) : ∃ outcome, list.anyM test = some outcome := by
  induction list with
  | nil => exact ⟨false, rfl⟩
  | cons item list ih =>
    obtain ⟨first, hfirst⟩ := h item List.mem_cons_self
    obtain ⟨rest, hrest⟩ := ih fun other hother => h other (List.mem_cons_of_mem _ hother)
    rw [List.anyM, hfirst]
    cases first with
    | true => exact ⟨true, rfl⟩
    | false => exact ⟨rest, hrest⟩

theorem exists_must_send (h : Indexed topology subgraph) :
    ∃ must_send, subgraph.must_send = some must_send := by
  unfold must_send
  split
  · exact ⟨true, rfl⟩
  · refine exists_anyM fun change hchange => ?_
    have hlocation : subgraph.pointstamp_tracker.builder.has_location change.1.1 = true := by
      rw [h.builder_eq]
      exact h.locals.compact change hchange
    obtain ⟨port, hport⟩ := Option.isSome_iff_exists.mp
      ((subgraph.pointstamp_tracker.port_isSome _).mpr hlocation)
    unfold Tracker.is_global
    rw [hport]
    exact ⟨_, rfl⟩

/-- What is sent is at locations of the graph. -/
theorem exists_send_progress (h : Indexed topology subgraph) :
    ∃ sent after, subgraph.send_progress = some (sent, after) ∧ Indexed topology after ∧
      ∀ change ∈ sent, topology.HasKey change.1 := by
  obtain ⟨must_send, hmust⟩ := h.exists_must_send
  unfold send_progress
  rw [hmust, Option.map_some]
  split
  · exact ⟨_, _, rfl, h.with_pointstamps (ChangeBatch.keysIn_new _) h.final, h.locals.compact⟩
  · exact ⟨_, _, rfl, h.with_pointstamps h.locals.compact h.final,
      fun _ hchange => absurd hchange List.not_mem_nil⟩

end Indexed

/-- The given number of iterations does not bring the tracker to an end. -/
def Circulating (fuel : ℕ) (subgraph : Subgraph O S TOuter TInner) : Prop :=
  ∃ committed loaded last, subgraph.commit_pointstamps = some committed ∧
    committed.pointstamp_tracker.load = some loaded ∧ loaded.iterate fuel = some last ∧
    last.worklist.next.isSome

namespace Indexed

variable {topology : Builder S} {subgraph : Subgraph O S TOuter TInner}

/-- Propagating goes through if the tracker comes to an end. -/
theorem propagate_pointstamps (h : Indexed topology subgraph) (fuel : ℕ) :
    (∃ after, subgraph.propagate_pointstamps fuel = some after ∧ Indexed topology after) ∨
      subgraph.propagate_pointstamps fuel = none ∧ subgraph.Circulating fuel := by
  obtain ⟨committed, hcommit, hcommitted⟩ := h.exists_commit_pointstamps
  unfold Subgraph.propagate_pointstamps
  rw [hcommit, Option.bind_some]
  rcases hcommitted.ready.propagate_all fuel with ⟨tracker, htracker, hready, hsame⟩ |
    ⟨hnone, loaded, last, hload, hlast, hnext⟩
  · left
    have hpropagated := hcommitted.with_tracker hready hsame
    obtain ⟨delivered, hdeliver, hdelivered⟩ := hpropagated.exists_deliver_changes
    obtain ⟨after, hreport, hafter⟩ := hdelivered.exists_report_outputs
    refine ⟨after, ?_, hafter⟩
    unfold propagate_tracker
    rw [htracker, Option.map_some, Option.bind_some, hpropagated.print_children_eq, Option.bind_some,
      hdeliver, Option.bind_some, hreport]
  · right
    refine ⟨?_, committed, loaded, last, hcommit, hload, hlast, hnext⟩
    unfold propagate_tracker
    rw [hnone]
    rfl

/-! ### Extracting -/

/-- A child is extracted into a batch of pointstamp changes, and put back. -/
theorem exists_extract_progress (h : Indexed topology subgraph) {index : ℕ}
    {found child : PerOperatorState O S TInner} (hfound : subgraph.children[index]? = some found)
    (hwiring : child.wiring = found.wiring)
    (hsilent : index ∈ subgraph.wrapper_ghost → child.shared_progress.Silent)
    {pointstamps : ChangeBatch (Location × TInner)} (hpointstamps : pointstamps.KeysIn topology.HasKey) :
    ∃ outcome, child.extract_progress subgraph.wrapper_ghost subgraph.wrapper_ghost_edges
        (pointstamps, subgraph.temp_active) = some outcome ∧
      outcome.2.1.KeysIn topology.HasKey ∧
      Indexed topology { subgraph with
        children := subgraph.children.set index outcome.1
        temp_active := outcome.2.2 } := by
  have hwired : WiredChild topology subgraph.layout index child.wiring := by
    rw [hwiring]
    exact h.child hfound
  have hin : InGraph topology (pointstamps, subgraph.temp_active) := ⟨hpointstamps, h.active⟩
  obtain ⟨outcome, houtcome, hsame, hdrained, hafter⟩ :=
    Timely.exists_extract_progress h.wired.ghosts h.wired.nodes hwired hsilent hin
  exact ⟨outcome, houtcome, hafter.keys,
    (h.set_child hfound (hsame.trans hwiring) fun _ => hdrained).with_active hafter.active⟩

theorem exists_extract_child (h : Indexed topology subgraph) {index : ℕ}
    {found child : PerOperatorState O S TInner} (hfound : subgraph.children[index]? = some found)
    (hwiring : child.wiring = found.wiring)
    (hsilent : index ∈ subgraph.wrapper_ghost → child.shared_progress.Silent) :
    ∃ after, subgraph.extract_child index child = some after ∧ Indexed topology after := by
  unfold extract_child
  by_cases hlocal : child.is_local
  · obtain ⟨outcome, houtcome, hkeys, hafter⟩ :=
      h.exists_extract_progress hfound hwiring hsilent h.locals
    simp only [hlocal, if_true, houtcome, Option.map_some]
    exact ⟨_, rfl, hafter.with_pointstamps hkeys h.final⟩
  · obtain ⟨outcome, houtcome, hkeys, hafter⟩ :=
      h.exists_extract_progress hfound hwiring hsilent h.final
    rw [Bool.not_eq_true] at hlocal
    simp only [hlocal, Bool.false_eq_true, if_false, houtcome, Option.map_some]
    exact ⟨_, rfl, hafter.with_pointstamps h.locals hkeys⟩

theorem exists_express_child (h : Indexed topology subgraph) {index : ℕ}
    (hindex : index < topology.shape.length) :
    ∃ after, subgraph.express_child index = some after ∧ Indexed topology after := by
  obtain ⟨child, hchild⟩ := h.exists_child hindex
  unfold express_child
  simp only [hchild]
  split
  · exact ⟨subgraph, rfl, h⟩
  · obtain ⟨outcome, houtcome, hkeys, hafter⟩ :=
      h.exists_extract_progress hchild rfl (h.silent index child hchild) h.final
    simp only [houtcome, Option.map_some]
    exact ⟨_, rfl, hafter.with_pointstamps h.locals hkeys⟩

end Indexed

/-! ### Activating -/

section Operators

variable [Operate O TInner]

/-- A reason to stop other than an index: the operator fails or has been closed too early, more
    children complete than were counted, or the child makes a statement that nothing supports. -/
def Stops (subgraph : Subgraph O S TOuter TInner) (index : ℕ) (child : PerOperatorState O S TInner) :
    Prop :=
  child.schedule = none ∨ ∃ flag scheduled, child.schedule = some (flag, scheduled) ∧
    (flag = false ∧ subgraph.incomplete[index]? = some true ∧ subgraph.incomplete_count = 0 ∨
      ∃ child_state output time, subgraph.pointstamp_tracker.per_operator[index]? = some child_state ∧
        scheduled.supported child_state output time = some false)

namespace Indexed

variable {topology : Builder S} {subgraph : Subgraph O S TOuter TInner}

/-- A child that respects what it shares stays wired. -/
theorem set_respecting (h : Indexed topology subgraph) {index : ℕ}
    {child changed : PerOperatorState O S TInner} (hchild : subgraph.children[index]? = some child)
    (hrespects : Respects child.shared_progress changed.shared_progress)
    (hwiring : changed.wiring = child.wiring) :
    Indexed topology { subgraph with children := subgraph.children.set index changed } :=
  h.set_child hchild hwiring fun hwrapper =>
    (hrespects.own ((h.child hchild).wraps hwrapper)).silent (h.silent index child hchild hwrapper)

theorem set_incomplete (h : Indexed topology subgraph) {index : ℕ} (hindex : index < topology.shape.length)
    (flag : Bool) :
    (∃ counted, subgraph.set_incomplete index flag = some counted ∧ Indexed topology counted ∧
      counted.children = subgraph.children ∧
      counted.pointstamp_tracker = subgraph.pointstamp_tracker ∧
      counted.wrapper_ghost = subgraph.wrapper_ghost) ∨
      subgraph.set_incomplete index flag = none ∧
        (flag = false ∧ subgraph.incomplete[index]? = some true ∧ subgraph.incomplete_count = 0) := by
  have hlength : index < subgraph.incomplete.length := by
    have hcount : subgraph.incomplete.length = subgraph.layout.children.length := h.wired.incomplete
    rw [hcount, ← h.wired.nodes]
    exact hindex
  have hset : ∀ count, Indexed topology
      { subgraph with incomplete := subgraph.incomplete.set index flag, incomplete_count := count } := by
    intro count
    refine ⟨?_, h.builder_eq, h.ready, h.outputs, h.locals, h.final, h.active, h.silent⟩
    have hwired := h.wired
    unfold layout at hwired ⊢
    simpa only [List.length_set] using hwired
  unfold Subgraph.set_incomplete
  rw [List.getElem?_eq_getElem hlength]
  by_cases hsame : flag = subgraph.incomplete[index]
  · exact Or.inl ⟨subgraph, by simp [hsame], h, rfl, rfl, rfl⟩
  · cases flag with
    | true =>
      exact Or.inl ⟨_, by simp only [if_neg hsame, if_true]; rfl, hset _, rfl, rfl, rfl⟩
    | false =>
      by_cases hcount : 0 < subgraph.incomplete_count
      · exact Or.inl ⟨_, by simp only [if_neg hsame, Bool.false_eq_true, if_false, if_pos hcount]; rfl,
          hset _, rfl, rfl, rfl⟩
      · have hold : subgraph.incomplete[index] = true := by simpa using hsame
        exact Or.inr ⟨by simp only [if_neg hsame, Bool.false_eq_true, if_false, if_neg hcount], rfl,
          by rw [hold], Nat.eq_zero_of_not_pos hcount⟩

/-- A child is reviewed, unless it makes a statement that nothing supports. -/
theorem review_child (h : Indexed topology subgraph) {index : ℕ} (hindex : index < topology.shape.length)
    {child : PerOperatorState O S TInner} (hchild : WiredChild topology subgraph.layout index child.wiring)
    (hsilent : index ∈ subgraph.wrapper_ghost → child.shared_progress.Silent) (flag : Bool) :
    (∃ reviewed, subgraph.review_child index flag child = some reviewed ∧
      reviewed.shared_progress = child.shared_progress ∧ reviewed.wiring = child.wiring) ∨
      subgraph.review_child index flag child = none ∧ ∃ child_state output time, subgraph.pointstamp_tracker.per_operator[index]? = some child_state ∧
        child.supported child_state output time = some false := by
  have hlength : index < subgraph.pointstamp_tracker.per_operator.length := by
    have hshape := congrArg List.length subgraph.pointstamp_tracker.shape_eq
    rw [List.length_map, h.builder_eq] at hshape
    exact hindex.trans_eq hshape.symm
  have hstate := List.getElem?_eq_getElem hlength
  generalize subgraph.pointstamp_tracker.per_operator[index] = child_state at hstate
  unfold Subgraph.review_child
  simp only [hstate]
  cases flag with
  | false =>
    left
    simp only [Bool.false_eq_true, if_false]
    split
    · exact ⟨_, rfl, rfl, rfl⟩
    · exact ⟨_, rfl, rfl, rfl⟩
  | true =>
    cases hvalidate : child.validate_progress child_state with
    | some checked => exact Or.inl ⟨child, rfl, rfl, rfl⟩
    | none =>
      right
      obtain ⟨output, time, hunsupported⟩ := exists_not_supported (by
        intro output batch hbatch hnonempty
        by_cases hwrapper : index ∈ subgraph.wrapper_ghost
        · -- a wrapper makes no statement of its own
          rcases hbatch with hinternal | hproduced
          · exact absurd ((hsilent hwrapper).internals batch (List.mem_of_getElem? hinternal)) hnonempty
          · exact absurd ((hsilent hwrapper).produceds batch (List.mem_of_getElem? hproduced)) hnonempty
        · have hports := hchild.ports hwrapper
          apply lt_length_sources hstate
          rw [h.builder_eq]
          rcases hbatch with hinternal | hproduced
          · exact hports.internals output (List.getElem?_eq_some_iff.mp hinternal).1
          · exact hports.produceds output (List.getElem?_eq_some_iff.mp hproduced).1) hvalidate
      exact ⟨rfl, child_state, output, time, rfl, hunsupported⟩

/-- Activating a child goes through, unless the child gives another reason to stop. -/
theorem activate_child (horderly : Operate.Orderly O TInner) (h : Indexed topology subgraph) {index : ℕ}
    {child : PerOperatorState O S TInner} (hchild : subgraph.children[index]? = some child) :
    (∃ flag after, subgraph.activate_child index = some (flag, after) ∧ Indexed topology after) ∨
      subgraph.activate_child index = none ∧ subgraph.Stops index child := by
  have hindex : index < topology.shape.length := by
    rw [h.nodes]
    exact (List.getElem?_eq_some_iff.mp hchild).1
  unfold Subgraph.activate_child
  simp only [hchild]
  cases hschedule : child.schedule with
  | none => exact Or.inr ⟨rfl, Or.inl hschedule⟩
  | some outcome =>
    obtain ⟨flag, scheduled⟩ := outcome
    obtain ⟨hrespects, hwiring⟩ := respects_of_schedule horderly hschedule
    rcases h.set_incomplete hindex flag with
      ⟨counted, hcount, hcounted, hchildren, htracker, hghosts⟩ | ⟨hnone, hunderflow⟩
    · have hfound : counted.children[index]? = some child := by
        rw [hchildren]
        exact hchild
      have hwired : WiredChild topology counted.layout index scheduled.wiring := by
        rw [hwiring]
        exact hcounted.child hfound
      have hsilent : index ∈ counted.wrapper_ghost → scheduled.shared_progress.Silent := by
        intro hwrapper
        rw [hghosts] at hwrapper
        exact (hrespects.own ((h.child hchild).wraps hwrapper)).silent
          (h.silent index child hchild hwrapper)
      rcases hcounted.review_child hindex hwired hsilent flag with
        ⟨reviewed, hreview, hshared, hsame⟩ | ⟨hnone, child_state, output, time, hstate, hsupported⟩
      · obtain ⟨after, hextract, hafter⟩ := hcounted.exists_extract_child hfound (hsame.trans hwiring)
          (by rw [hshared]; exact hsilent)
        refine Or.inl ⟨flag, after, ?_, hafter⟩
        simp only [hcount, Option.bind_some, hreview, hextract, Option.map_some]
      · right
        rw [htracker] at hstate
        refine ⟨?_, Or.inr ⟨flag, scheduled, hschedule, Or.inr ⟨child_state, output, time, hstate, hsupported⟩⟩⟩
        simp only [hcount, Option.bind_some, hnone, Option.bind_none, Option.map_none]
    · refine Or.inr ⟨?_, Or.inr ⟨flag, scheduled, hschedule, Or.inl hunderflow⟩⟩
      simp only [hnone, Option.bind_none, Option.map_none]

theorem set_child_external_summary (horderly : Operate.Orderly O TInner) (h : Indexed topology subgraph)
    {index : ℕ} {after : Subgraph O S TOuter TInner}
    (hset : subgraph.set_child_external_summary index = some after) : Indexed topology after := by
  obtain ⟨child, changed, hchild, hchanged, rfl⟩ := modify_child_cases hset
  split at hchanged
  · cases hchanged
    exact h.set_respecting hchild ⟨rfl, fun _ => SameOwn.refl _⟩ rfl
  · obtain ⟨outcome, houtcome, rfl⟩ := Option.map_eq_some_iff.mp hchanged
    have hrespects := horderly.set_external_summary houtcome
    refine h.set_respecting hchild hrespects ?_
    unfold PerOperatorState.wiring
    simp only [hrespects.ports]

/-- Every step of a scope that receives changes at locations of its graph only leaves all indices in
    range. -/
theorem step (horderly : Operate.Orderly O TInner) (h : Indexed topology subgraph)
    {event : ScopeEvent TOuter TInner} {after : Subgraph O S TOuter TInner}
    (hreceived : ∀ changes, event = .receive changes → ∀ change ∈ changes, topology.HasKey change.1)
    (hstep : ScopeStep subgraph event after) : Indexed topology after := by
  cases hstep with
  | outer_frontier hupdate =>
    refine h.with_shared ?_
    simp only [SharedProgress.ports, length_update_at hupdate]
  | accept_frontier => exact h.accept_frontier
  | enter hupdate => exact h.with_input_messages (length_update_at hupdate)
  | harvest_inputs hharvest =>
    obtain ⟨other, hother, hindexed⟩ := h.exists_harvest_inputs
    rwa [Option.some.inj (hharvest.symm.trans hother)]
  | receive => exact h.receive (hreceived _ rfl)
  | propagate_pointstamps hpropagates =>
    obtain ⟨fuel, hreturns⟩ := hpropagates
    rcases h.propagate_pointstamps fuel with ⟨other, hother, hindexed⟩ | ⟨hnone, -⟩
    · rwa [Option.some.inj (hreturns.symm.trans hother)]
    · rw [hnone] at hreturns
      cases hreturns
  | @express_child _ child_index hexpress =>
    by_cases hindex : child_index < topology.shape.length
    · obtain ⟨other, hother, hindexed⟩ := h.exists_express_child hindex
      rwa [Option.some.inj (hexpress.symm.trans hother)]
    · have hnone : subgraph.children[child_index]? = none :=
        List.getElem?_eq_none (h.nodes.symm.trans_le (Nat.le_of_not_lt hindex))
      unfold express_child at hexpress
      rw [hnone] at hexpress
      cases hexpress
  | set_child_external_summary hset => exact h.set_child_external_summary horderly hset
  | activate_child hactivate =>
    obtain ⟨child, _, _, _, hactivated⟩ := activated_of_activate_child hactivate
    rcases h.activate_child horderly hactivated.child_eq with ⟨_, other, hother, hindexed⟩ | ⟨hnone, -⟩
    · rwa [(Prod.mk.inj (Option.some.inj (hactivate.symm.trans hother))).2]
    · rw [hnone] at hactivate
      cases hactivate
  | send_progress hsend =>
    obtain ⟨sent, other, hother, hindexed, -⟩ := h.exists_send_progress
    have hsame := (Prod.mk.inj (Option.some.inj (hsend.symm.trans hother))).2
    rwa [hsame]
  | extract_progress =>
    refine h.with_shared ?_
    simp only [SharedProgress.ports, length_drained]

end Indexed

end Operators

end Subgraph

end Timely
