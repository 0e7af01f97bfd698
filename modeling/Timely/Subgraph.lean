/-
  Timely/Subgraph.lean
  ====================
  **Subgraphs and their children** (`timely/src/progress/subgraph.rs`,
  `timely/src/progress/operate.rs`).

  A subgraph schedules its children, collects what they report into pointstamp
  changes, and propagates the changes that come back from all workers.  The
  methods that `Subgraph::schedule` calls one after the other are modelled one
  by one; a result `none` is a panic, of the debug profile (assertions and
  overflow checks are on).  What an operator does when it is scheduled is a
  parameter, the class `Operate`.
-/
import Timely.Exactness

set_option linter.unusedSectionVars false

namespace Timely

open Library

/-! ### Shared progress -/

/-- Progress information shared between parent and child. -/
structure SharedProgress (T : Type) [Ord T] where
  frontiers : List (ChangeBatch T)
  consumeds : List (ChangeBatch T)
  internals : List (ChangeBatch T)
  produceds : List (ChangeBatch T)
  wrapper_frontiers : AList fun _ : ℕ => List (ChangeBatch T)
  wrapper_consumeds : AList fun _ : ℕ => List (ChangeBatch T)
  wrapper_internals : AList fun _ : ℕ => List (ChangeBatch T)
  wrapper_produceds : AList fun _ : ℕ => List (ChangeBatch T)

/-- Allocates a new shared progress structure. -/
def SharedProgress.new {T : Type} [Ord T] (inputs outputs : ℕ) : SharedProgress T where
  frontiers := List.replicate inputs ChangeBatch.new
  consumeds := List.replicate inputs ChangeBatch.new
  internals := List.replicate outputs ChangeBatch.new
  produceds := List.replicate outputs ChangeBatch.new
  wrapper_frontiers := ∅
  wrapper_consumeds := ∅
  wrapper_internals := ∅
  wrapper_produceds := ∅

/-- One list of empty batches for each ghost. -/
def ghost_batches {T : Type} [Ord T] (count : ℕ) (ghosts : List ℕ) :
    AList fun _ : ℕ => List (ChangeBatch T) :=
  ghosts.foldl (fun kept ghost => kept.insert ghost (List.replicate count ChangeBatch.new)) ∅

/-- Allocates a new shared progress structure for a wrapper. -/
def SharedProgress.new_ghosts {T : Type} [Ord T] (inputs outputs : ℕ) (ghosts : List ℕ) :
    SharedProgress T where
  frontiers := List.replicate inputs ChangeBatch.new
  consumeds := List.replicate inputs ChangeBatch.new
  internals := List.replicate outputs ChangeBatch.new
  produceds := List.replicate outputs ChangeBatch.new
  wrapper_frontiers := ghost_batches inputs ghosts
  wrapper_consumeds := ghost_batches inputs ghosts
  wrapper_internals := ghost_batches outputs ghosts
  wrapper_produceds := ghost_batches outputs ghosts

/-- The logic of an operator: it reads and writes the progress it shares with its parent,
    and tells whether it is incomplete. -/
class Operate (O : Type) (T : outParam Type) [Ord T] where
  schedule : O → SharedProgress T → Option (Bool × O × SharedProgress T)
  set_external_summary : O → SharedProgress T → Option (O × SharedProgress T)

/-- Update one batch of a list; `none` where the index is outside. -/
def update_at {K : Type} [Ord K] [DecidableEq K] [Std.TransOrd K] [Std.LawfulEqOrd K]
    (batches : List (ChangeBatch K)) (index : ℕ) (item : K) (value : ℤ) :
    Option (List (ChangeBatch K)) :=
  if index < batches.length then
    some (batches.modify index fun batch => batch.update item value)
  else none

/-- An update at an index inside goes through, and leaves as many batches. -/
theorem exists_update_at {K : Type} [Ord K] [DecidableEq K] [Std.TransOrd K] [Std.LawfulEqOrd K]
    {batches : List (ChangeBatch K)} {index : ℕ} (h : index < batches.length) (item : K) (value : ℤ) :
    ∃ after, update_at batches index item value = some after ∧ after.length = batches.length := by
  unfold update_at
  rw [if_pos h]
  exact ⟨_, rfl, List.length_modify _ _ _⟩

theorem length_update_at {K : Type} [Ord K] [DecidableEq K] [Std.TransOrd K] [Std.LawfulEqOrd K]
    {batches after : List (ChangeBatch K)} {index : ℕ} {item : K} {value : ℤ}
    (h : update_at batches index item value = some after) : after.length = batches.length := by
  unfold update_at at h
  split at h
  · cases h
    exact List.length_modify _ _ _
  · cases h

/-- Replacing an element by one that looks the same. -/
theorem map_set_of_eq {α β : Type} {list : List α} {index : ℕ} {value changed : α} {view : α → β}
    (hvalue : list[index]? = some value) (hview : view changed = view value) :
    (list.set index changed).map view = list.map view := by
  obtain ⟨hlength, rfl⟩ := List.getElem?_eq_some_iff.mp hvalue
  rw [List.map_set, hview]
  apply List.ext_getElem?
  intro other
  rw [List.getElem?_set, List.length_map]
  by_cases hother : index = other
  · subst hother
    rw [if_pos rfl, if_pos hlength, List.getElem?_map, List.getElem?_eq_getElem hlength]
    rfl
  · rw [if_neg hother]

/-! ### Children -/

/-- The state that a subgraph keeps for a child. -/
structure PerOperatorState (O S T : Type) [Ord T] where
  index : ℕ
  is_local : Bool
  notify : Bool
  inputs : ℕ
  outputs : ℕ
  count_for_incomplete : Bool
  operator : Option O
  edges : List (List Target)
  ghost_edges : List (List Target)
  shared_progress : SharedProgress T
  internal_summary : List (List (Antichain S))

/-- The placeholder for the outer scope. -/
def PerOperatorState.empty (O S T : Type) [Ord T] (inputs outputs : ℕ) : PerOperatorState O S T where
  index := 0
  is_local := false
  notify := true
  inputs := inputs
  outputs := outputs
  count_for_incomplete := true
  operator := none
  edges := List.replicate outputs []
  ghost_edges := List.replicate outputs []
  shared_progress := SharedProgress.new inputs outputs
  internal_summary := []

/-- The activations of children, least index first. -/
def activate (temp_active : List ℕ) (index : ℕ) : List ℕ :=
  temp_active.orderedInsert (· ≤ ·) index

theorem mem_activate {temp_active : List ℕ} {index other : ℕ} :
    other ∈ activate temp_active index ↔ other = index ∨ other ∈ temp_active := by
  unfold activate
  exact List.mem_orderedInsert (· ≤ ·)

section Children

variable {O S T : Type} [PartialOrder T] [DecidableLE T] [DecidableEq T] [Ord T] [LinearExtension T]

namespace PerOperatorState

/-- A closed operator that is told of progress is an error. -/
def prematurely_shut_down (child : PerOperatorState O S T) : Bool :=
  child.operator.isNone && child.shared_progress.frontiers.any fun changes => !changes.is_empty.1

def schedule [Operate O T] (child : PerOperatorState O S T) :
    Option (Bool × PerOperatorState O S T) :=
  match child.operator with
  | some operator =>
    (Operate.schedule operator child.shared_progress).map fun outcome =>
      (outcome.1,
        { child with operator := some outcome.2.1, shared_progress := outcome.2.2 })
  | none =>
    if child.prematurely_shut_down then none
    else
      some (false,
        { child with
          shared_progress :=
            { child.shared_progress with
              frontiers := child.shared_progress.frontiers.map fun changes => changes.is_empty.2 } })

def shut_down (child : PerOperatorState O S T) : PerOperatorState O S T :=
  { child with operator := none }

/-- Whether an increment is supported by a consumed message or an implied capability. -/
def supported (child : PerOperatorState O S T) (child_state : PerOperator S T) (output : ℕ)
    (time : T) : Option Bool :=
  let consumed := child.shared_progress.consumeds.any fun changes =>
    changes.compact.updates.any fun change => decide (0 < change.2) && decide (change.1 ≤ time)
  (child_state.sources[output]?).map fun source =>
    consumed || source.implications.frontier.any (· ≤ time)

/-- Check the increments that one output reports.  Iterating compacts the batches, which the
    extraction that follows does as well. -/
def validate_changes (child : PerOperatorState O S T) (child_state : PerOperator S T)
    (changes : ChangeBatch T × ℕ) : Option Unit :=
  changes.1.compact.updates.foldlM (fun _ (change : T × ℤ) =>
    if (0 : ℤ) < change.2 then
      match child.supported child_state changes.2 change.1 with
      | some true => some ()
      | _ => none
    else some ()) ()

/-- Test the validity of the shared progress. -/
def validate_progress (child : PerOperatorState O S T) (child_state : PerOperator S T) :
    Option Unit :=
  (child.shared_progress.internals.zipIdx ++ child.shared_progress.produceds.zipIdx).foldlM
    (fun _ changes => child.validate_changes child_state changes) ()

end PerOperatorState

/-! ### Extracting progress -/

/-- Pointstamp changes and the activations that go with them. -/
abbrev Extraction (T : Type) [Ord T] := ChangeBatch (Location × T) × List ℕ

/-- Drain batches in order, each update with the index of its batch. -/
def drain_all {σ : Type} (batches : List (ChangeBatch T)) (act : ℕ → T × ℤ → σ → Option σ)
    (start : σ) : Option σ :=
  (batches.zipIdx.flatMap fun batch => batch.1.drain.1.map fun change => (batch.2, change)).foldlM
    (fun state change => act change.1 change.2 state) start

def drained (batches : List (ChangeBatch T)) : List (ChangeBatch T) :=
  batches.map fun batch => batch.drain.2

/-- Report a consumed message at an input of a node. -/
def extract_consumed (node input : ℕ) (change : T × ℤ) (state : Extraction T) :
    Option (Extraction T) :=
  some (state.1.update (Location.new_target node input, change.1) (-change.2), state.2)

/-- Report a capability at an output of a node. -/
def extract_internal (node output : ℕ) (change : T × ℤ) (state : Extraction T) :
    Option (Extraction T) :=
  some (state.1.update (Location.new_source node output, change.1) change.2, state.2)

/-- Report a produced message at each target of an output. -/
def extract_produced (edges ghost_edges : List (List Target)) (output : ℕ) (change : T × ℤ)
    (state : Extraction T) : Option (Extraction T) :=
  match edges[output]?, ghost_edges[output]? with
  | some targets, some ghost_targets =>
    some (ghost_targets.foldl (fun kept target =>
        kept.update (Location.from_target target, change.1) change.2) state.1,
      targets.foldl (fun active target => activate active target.node) state.2)
  | _, _ => none

/-- Report a message that a ghost operator produced, along the edges of its wrapper. -/
def extract_ghost_produced (wrapper_edges : List (ℕ × ℕ)) (ghost : ℕ) (_output : ℕ)
    (change : T × ℤ) (state : Extraction T) : Option (Extraction T) :=
  some ((wrapper_edges.filter fun edge => edge.1 = ghost).foldl (fun state edge =>
    (state.1.update (Location.from_target ⟨edge.2, 0⟩, change.1) change.2,
      activate state.2 edge.2)) state)

/-- Extract what a wrapper reports for one of its ghosts. -/
def extract_ghost (wrapper_edges : List (ℕ × ℕ)) (state : SharedProgress T × Extraction T)
    (ghost : ℕ) : Option (SharedProgress T × Extraction T) :=
  match state.1.wrapper_consumeds.lookup ghost, state.1.wrapper_internals.lookup ghost,
    state.1.wrapper_produceds.lookup ghost with
  | some consumeds, some internals, some produceds =>
    ((drain_all consumeds (extract_consumed ghost) state.2).bind
      (drain_all internals (extract_internal ghost))).bind
      (drain_all produceds (extract_ghost_produced wrapper_edges ghost)) |>.map fun extraction =>
        ({ state.1 with
            wrapper_consumeds := state.1.wrapper_consumeds.insert ghost (drained consumeds)
            wrapper_internals := state.1.wrapper_internals.insert ghost (drained internals)
            wrapper_produceds := state.1.wrapper_produceds.insert ghost (drained produceds) },
          extraction)
  | _, _, _ => none

/-- Extract what a wrapper reports for all of its ghosts. -/
def extract_wrapper (index : ℕ) (wrapper_ghost : AList fun _ : ℕ => List ℕ)
    (wrapper_ghost_edges : AList fun _ : ℕ => List (ℕ × ℕ))
    (state : SharedProgress T × Extraction T) : Option (SharedProgress T × Extraction T) :=
  match wrapper_ghost.lookup index with
  | none => some state
  | some ghosts =>
    match wrapper_ghost_edges.lookup index with
    | none => none
    | some wrapper_edges => ghosts.foldlM (extract_ghost wrapper_edges) state

/-- Extracts shared progress information and converts it to pointstamp changes. -/
def PerOperatorState.extract_progress (child : PerOperatorState O S T)
    (wrapper_ghost : AList fun _ : ℕ => List ℕ)
    (wrapper_ghost_edges : AList fun _ : ℕ => List (ℕ × ℕ)) (extraction : Extraction T) :
    Option (PerOperatorState O S T × Extraction T) :=
  (extract_wrapper child.index wrapper_ghost wrapper_ghost_edges
    (child.shared_progress, extraction)).bind fun wrapped =>
    (((drain_all wrapped.1.consumeds (extract_consumed child.index) wrapped.2).bind
      (drain_all wrapped.1.internals (extract_internal child.index))).bind
      (drain_all wrapped.1.produceds (extract_produced child.edges child.ghost_edges))).map
      fun extraction =>
        ({ child with
            shared_progress :=
              { wrapped.1 with
                consumeds := drained wrapped.1.consumeds
                internals := drained wrapped.1.internals
                produceds := drained wrapped.1.produceds } },
          extraction)

end Children

/-! ### Subgraphs -/

/-- A dataflow subgraph: its children, and the pointstamps it tracks. -/
structure Subgraph (O S TOuter TInner : Type) [Ord TOuter] [Ord TInner] where
  inputs : ℕ
  outputs : ℕ
  children : List (PerOperatorState O S TInner)
  incomplete : List Bool
  incomplete_count : ℕ
  temp_active : List ℕ
  input_messages : List (ChangeBatch TInner)
  output_capabilities : List (MutableAntichain TOuter)
  local_pointstamp : ChangeBatch (Location × TInner)
  final_pointstamp : ChangeBatch (Location × TInner)
  pointstamp_tracker : Tracker S TInner
  shared_progress : SharedProgress TOuter
  wrapper_ghost : AList fun _ : ℕ => List ℕ
  ghost_wrapper : AList fun _ : ℕ => ℕ
  wrapper_ghost_edges : AList fun _ : ℕ => List (ℕ × ℕ)
  eager_progress_send : Bool

namespace Subgraph

variable {O S TOuter TInner : Type}
  [PartialOrder TOuter] [DecidableLE TOuter] [DecidableEq TOuter] [Ord TOuter]
  [LinearExtension TOuter]
  [PartialOrder TInner] [DecidableLE TInner] [DecidableEq TInner] [Ord TInner]
  [LinearExtension TInner] [Refines TOuter TInner]

/-- Move frontier changes from the parent into progress statements. -/
def accept_frontier (subgraph : Subgraph O S TOuter TInner) : Subgraph O S TOuter TInner :=
  { subgraph with
    pointstamp_tracker :=
      (subgraph.shared_progress.frontiers.zipIdx.flatMap fun changes =>
        changes.1.drain.1.map fun change => (changes.2, change)).foldl
        (fun tracker change =>
          tracker.update_source ⟨0, change.1⟩ (Refines.to_inner change.2.1) change.2.2)
        subgraph.pointstamp_tracker
    shared_progress :=
      { subgraph.shared_progress with frontiers := drained subgraph.shared_progress.frontiers } }

/-- Count one batch of records entering the scope: produced at each target of the input, and
    taken out of the source of child zero. -/
def harvest_input (ghost_edges : List (List Target)) (input : ℕ) (change : TInner × ℤ)
    (pointstamps : ChangeBatch (Location × TInner)) : Option (ChangeBatch (Location × TInner)) :=
  (ghost_edges[input]?).map fun targets =>
    (targets.foldl (fun kept target =>
      kept.update (Location.from_target target, change.1) change.2) pointstamps).update
      (Location.new_source 0 input, change.1) (-change.2)

/-- Collects counts of records entering the scope. -/
def harvest_inputs (subgraph : Subgraph O S TOuter TInner) : Option (Subgraph O S TOuter TInner) :=
  match subgraph.children[0]? with
  | none => none
  | some child =>
    if subgraph.input_messages.length = subgraph.inputs then
      (drain_all subgraph.input_messages (harvest_input child.ghost_edges)
        subgraph.local_pointstamp).map fun pointstamps =>
        { subgraph with
          local_pointstamp := pointstamps
          input_messages := drained subgraph.input_messages }
    else none

/-! ### Propagating pointstamps -/

/-- Process one exchanged pointstamp: statements about child zero are reported outwards, all
    others update the tracker. -/
def commit_pointstamp (subgraph : Subgraph O S TOuter TInner)
    (change : (Location × TInner) × ℤ) : Option (Subgraph O S TOuter TInner) :=
  match change with
  | ((location, timestamp), delta) =>
    if location.node = 0 then
      match location.port with
      | .source scope_input =>
        (update_at subgraph.shared_progress.consumeds scope_input
          (Refines.to_outer timestamp) (-delta)).map fun consumeds =>
          { subgraph with shared_progress := { subgraph.shared_progress with consumeds := consumeds } }
      | .target scope_output =>
        (update_at subgraph.shared_progress.produceds scope_output
          (Refines.to_outer timestamp) delta).map fun produceds =>
          { subgraph with shared_progress := { subgraph.shared_progress with produceds := produceds } }
    else
      some
        { subgraph with
          pointstamp_tracker := subgraph.pointstamp_tracker.update location timestamp delta }

/-- Drain the exchanged pointstamps. -/
def commit_pointstamps (subgraph : Subgraph O S TOuter TInner) :
    Option (Subgraph O S TOuter TInner) :=
  subgraph.final_pointstamp.drain.1.foldlM commit_pointstamp
    { subgraph with final_pointstamp := subgraph.final_pointstamp.drain.2 }

/-- Change the state of one child; `none` where there is no such child. -/
def modify_child (subgraph : Subgraph O S TOuter TInner) (index : ℕ)
    (change : PerOperatorState O S TInner → Option (PerOperatorState O S TInner)) :
    Option (Subgraph O S TOuter TInner) :=
  match subgraph.children[index]? with
  | none => none
  | some child =>
    (change child).map fun changed =>
      { subgraph with children := subgraph.children.set index changed }

/-- Record a frontier change at an input of a child. -/
def push_frontier (port : ℕ) (time : TInner) (diff : ℤ) (child : PerOperatorState O S TInner) :
    Option (PerOperatorState O S TInner) :=
  (update_at child.shared_progress.frontiers port time diff).map fun frontiers =>
    { child with shared_progress := { child.shared_progress with frontiers := frontiers } }

/-- Record a frontier change at an input of a ghost with its wrapper. -/
def push_wrapper_frontier (ghost port : ℕ) (time : TInner) (diff : ℤ)
    (child : PerOperatorState O S TInner) : Option (PerOperatorState O S TInner) :=
  match child.shared_progress.wrapper_frontiers.lookup ghost with
  | none => none
  | some frontiers =>
    (update_at frontiers port time diff).map fun frontiers =>
      { child with
        shared_progress :=
          { child.shared_progress with
            wrapper_frontiers := child.shared_progress.wrapper_frontiers.insert ghost frontiers } }

/-- Hand one propagated change to the child it concerns; the flag tells that a wrapper has
    been activated already. -/
def deliver_change (state : Subgraph O S TOuter TInner × Bool)
    (change : (Location × TInner) × ℤ) : Option (Subgraph O S TOuter TInner × Bool) :=
  match change with
  | ((location, time), diff) =>
    match location.port with
    | .source _ => some state
    | .target port =>
      match state.1.children[location.node]? with
      | none => none
      | some child =>
        let notified :=
          if child.notify then activate state.1.temp_active location.node
          else state.1.temp_active
        match state.1.ghost_wrapper.lookup location.node with
        | some wrapper =>
          let wrapper_pushed := state.2 || child.notify
          let active := if wrapper_pushed then notified else activate notified wrapper
          (modify_child { state.1 with temp_active := active } wrapper
            (push_wrapper_frontier location.node port time diff)).map fun subgraph => (subgraph, true)
        | none =>
          (modify_child { state.1 with temp_active := notified } location.node
            (push_frontier port time diff)).map fun subgraph => (subgraph, state.2)

/-- Drain propagated changes into the shared progress of the children. -/
def deliver_changes (subgraph : Subgraph O S TOuter TInner) : Option (Subgraph O S TOuter TInner) :=
  (subgraph.pointstamp_tracker.pushed_changes.drain.1.foldlM deliver_change
    ({ subgraph with
        pointstamp_tracker :=
          { subgraph.pointstamp_tracker with
            pushed_changes := subgraph.pointstamp_tracker.pushed_changes.drain.2 } },
      false)).map Prod.fst

/-- Report the frontier changes of one input of child zero as internal capability changes. -/
def report_output (subgraph : Subgraph O S TOuter TInner) (output : ℕ) :
    Option (Subgraph O S TOuter TInner) :=
  match subgraph.pointstamp_tracker.output_changes[output]?, subgraph.output_capabilities[output]? with
  | some changes, some capabilities =>
    let filtered := capabilities.update_iter
      (changes.drain.1.map fun change => (Refines.to_outer change.1, change.2))
    some
      { subgraph with
        pointstamp_tracker :=
          { subgraph.pointstamp_tracker with
            output_changes := subgraph.pointstamp_tracker.output_changes.set output changes.drain.2 }
        output_capabilities := subgraph.output_capabilities.set output filtered.2
        shared_progress :=
          { subgraph.shared_progress with
            internals := subgraph.shared_progress.internals.modify output fun internal =>
              filtered.1.foldl (fun kept change => kept.update change.1 change.2) internal } }
  | _, _ => none

def report_outputs (subgraph : Subgraph O S TOuter TInner) : Option (Subgraph O S TOuter TInner) :=
  (List.range subgraph.shared_progress.internals.length).foldlM report_output subgraph

/-- Propagate implications of progress changes. -/
def propagate_tracker [PathSummary S TInner] (fuel : ℕ) (subgraph : Subgraph O S TOuter TInner) :
    Option (Subgraph O S TOuter TInner) :=
  (subgraph.pointstamp_tracker.propagate_all fuel).map fun tracker =>
    { subgraph with pointstamp_tracker := tracker }

/-- The debug output names the children one to six, and panics where they do not exist. -/
def print_children (subgraph : Subgraph O S TOuter TInner) : Option (Subgraph O S TOuter TInner) :=
  if 7 ≤ subgraph.children.length then some subgraph else none

/-- Commits the pointstamps in `final_pointstamp`. -/
def propagate_pointstamps [PathSummary S TInner] (fuel : ℕ)
    (subgraph : Subgraph O S TOuter TInner) : Option (Subgraph O S TOuter TInner) :=
  (((subgraph.commit_pointstamps.bind (propagate_tracker fuel)).bind print_children).bind
    deliver_changes).bind report_outputs

/-- `propagate_pointstamps` returns, with the given subgraph. -/
def Propagates [PathSummary S TInner] (subgraph after : Subgraph O S TOuter TInner) : Prop :=
  ∃ fuel, subgraph.propagate_pointstamps fuel = some after

/-! ### Activating children -/

/-- Keep the number of incomplete children. -/
def set_incomplete (subgraph : Subgraph O S TOuter TInner) (child_index : ℕ) (incomplete : Bool) :
    Option (Subgraph O S TOuter TInner) :=
  match subgraph.incomplete[child_index]? with
  | none => none
  | some known =>
    if incomplete = known then some subgraph
    else if incomplete then
      some
        { subgraph with
          incomplete := subgraph.incomplete.set child_index incomplete
          incomplete_count := subgraph.incomplete_count + 1 }
    else if 0 < subgraph.incomplete_count then
      some
        { subgraph with
          incomplete := subgraph.incomplete.set child_index incomplete
          incomplete_count := subgraph.incomplete_count - 1 }
    else none

/-- A child may be shut down: it has neither capabilities nor an input frontier. -/
def nothing_left (child_state : PerOperator S TInner) : Bool :=
  (child_state.targets.all fun port => port.implications.is_empty) &&
    child_state.sources.all fun port => port.pointstamps.is_empty

/-- Shut a complete child down when nothing is left for it, or check the statements of an
    incomplete one. -/
def review_child (subgraph : Subgraph O S TOuter TInner) (child_index : ℕ) (incomplete : Bool)
    (child : PerOperatorState O S TInner) : Option (PerOperatorState O S TInner) :=
  match subgraph.pointstamp_tracker.per_operator[child_index]? with
  | none => none
  | some child_state =>
    if incomplete then (child.validate_progress child_state).map fun _ => child
    else if (subgraph.wrapper_ghost.lookup child_index).isNone && nothing_left child_state then
      some child.shut_down
    else some child

/-- Extract the progress statements of a child into the buffer for its kind. -/
def extract_child (subgraph : Subgraph O S TOuter TInner) (child_index : ℕ)
    (child : PerOperatorState O S TInner) : Option (Subgraph O S TOuter TInner) :=
  let pointstamps :=
    if child.is_local then subgraph.local_pointstamp else subgraph.final_pointstamp
  (child.extract_progress subgraph.wrapper_ghost subgraph.wrapper_ghost_edges
    (pointstamps, subgraph.temp_active)).map fun extracted =>
    { subgraph with
      children := subgraph.children.set child_index extracted.1
      temp_active := extracted.2.2
      local_pointstamp :=
        if child.is_local then extracted.2.1 else subgraph.local_pointstamp
      final_pointstamp :=
        if child.is_local then subgraph.final_pointstamp else extracted.2.1 }

/-- Schedules a child operator and collects progress statements. -/
def activate_child [Operate O TInner] (subgraph : Subgraph O S TOuter TInner) (child_index : ℕ) :
    Option (Bool × Subgraph O S TOuter TInner) :=
  match subgraph.children[child_index]? with
  | none => none
  | some child =>
    match child.schedule with
    | none => none
    | some (incomplete, scheduled) =>
      (((subgraph.set_incomplete child_index incomplete).bind fun counted =>
        (counted.review_child child_index incomplete scheduled).bind fun reviewed =>
          counted.extract_child child_index reviewed)).map fun extracted => (incomplete, extracted)

/-- What `schedule` returns: whether a child is incomplete, or messages are outstanding. -/
def unfinished (subgraph : Subgraph O S TOuter TInner) : Bool :=
  decide (0 < subgraph.incomplete_count) || subgraph.pointstamp_tracker.tracking_anything

/-! ### Exchanging progress -/

/-- Receive progress updates from the workers. -/
def receive (subgraph : Subgraph O S TOuter TInner) (changes : List ((Location × TInner) × ℤ)) :
    Subgraph O S TOuter TInner :=
  { subgraph with
    final_pointstamp := changes.foldl (fun kept change => kept.update change.1 change.2)
      subgraph.final_pointstamp }

/-- Whether updates must be sent now: always when sending eagerly, else only subtractions that
    are visible in the scope-wide frontier. -/
def must_send (subgraph : Subgraph O S TOuter TInner) : Option Bool :=
  if subgraph.eager_progress_send then some true
  else
    subgraph.local_pointstamp.iter.1.anyM fun change =>
      (subgraph.pointstamp_tracker.is_global change.1.1 change.1.2).map fun is_global =>
        is_global && decide (change.2 < 0)

/-- Sends local progress updates to all workers: the updates sent, if any. -/
def send_progress (subgraph : Subgraph O S TOuter TInner) :
    Option (List ((Location × TInner) × ℤ) × Subgraph O S TOuter TInner) :=
  subgraph.must_send.map fun must_send =>
    if must_send then
      (subgraph.local_pointstamp.drain.1,
        { subgraph with local_pointstamp := subgraph.local_pointstamp.drain.2 })
    else ([], { subgraph with local_pointstamp := subgraph.local_pointstamp.iter.2 })

/-! ### Initialization -/

/-- Extract the initial capabilities of a child; ghosts express none. -/
def express_child (subgraph : Subgraph O S TOuter TInner) (child_index : ℕ) :
    Option (Subgraph O S TOuter TInner) :=
  match subgraph.children[child_index]? with
  | none => none
  | some child =>
    if (subgraph.ghost_wrapper.lookup child.index).isSome then some subgraph
    else
      (child.extract_progress subgraph.wrapper_ghost subgraph.wrapper_ghost_edges
        (subgraph.final_pointstamp, subgraph.temp_active)).map fun extracted =>
        { subgraph with
          children := subgraph.children.set child_index extracted.1
          temp_active := extracted.2.2
          final_pointstamp := extracted.2.1 }

/-- Introduce the initial capabilities of all children, and propagate them to the outputs. -/
def get_internal_summary [PathSummary S TInner] (fuel : ℕ) (subgraph : Subgraph O S TOuter TInner) :
    Option (Subgraph O S TOuter TInner) :=
  ((List.range subgraph.children.length).foldlM express_child subgraph).bind
    (propagate_pointstamps fuel)

/-- Tell one child that its frontiers have been set. -/
def set_child_external_summary [Operate O TInner] (subgraph : Subgraph O S TOuter TInner)
    (child_index : ℕ) : Option (Subgraph O S TOuter TInner) :=
  subgraph.modify_child child_index fun child =>
    match child.operator with
    | none => some child
    | some operator =>
      (Operate.set_external_summary operator child.shared_progress).map fun outcome =>
        { child with operator := some outcome.1, shared_progress := outcome.2 }

/-- Propagate the input frontiers, and tell all children. -/
def set_external_summary [PathSummary S TInner] [Operate O TInner] (fuel : ℕ)
    (subgraph : Subgraph O S TOuter TInner) : Option (Subgraph O S TOuter TInner) :=
  (subgraph.propagate_pointstamps fuel).bind fun propagated =>
    (List.range propagated.children.length).foldlM set_child_external_summary propagated

end Subgraph

end Timely
