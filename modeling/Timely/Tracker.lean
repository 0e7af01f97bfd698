/-
  Timely/Tracker.lean
  ===================
  **The reachability tracker** (`timely/src/progress/reachability.rs`, `Tracker`).

  For every port the tracker keeps two mutable antichains: the active
  pointstamps, and the implications of the pointstamps of the whole graph.
  Changes are buffered; `propagate_all` first moves them through the pointstamp
  antichains (step 1), and then circulates the changes of the frontiers from a
  worklist through the implication antichains (step 2) until nothing is left.

  A value `none` is a panic: an index outside a table.  Step 2 takes a number of
  iterations, and `none` also stands for running out of them; `Propagates` holds
  when some number suffices.
-/
import Timely.Summaries
import Timely.Worklist

set_option linter.unusedSectionVars false

namespace Timely

open Library

variable {S T : Type} [PartialOrder T] [DecidableLE T] [DecidableEq T] [Ord T]

/-! ### Ports -/

/-- Per-port progress-tracking information. -/
structure PortInformation (S T : Type) [Ord T] where
  pointstamps : MutableAntichain T
  implications : MutableAntichain T
  output_summaries : List (Antichain S)

/-- Creates empty port information. -/
def PortInformation.new : PortInformation S T := ⟨MutableAntichain.new, MutableAntichain.new, []⟩

/-- Target and source information for each operator. -/
structure PerOperator (S T : Type) [Ord T] where
  targets : List (PortInformation S T)
  sources : List (PortInformation S T)

namespace PerOperator

/-- A new bundle from numbers of input and output ports. -/
def new (ports : ℕ × ℕ) : PerOperator S T :=
  ⟨List.replicate ports.1 PortInformation.new, List.replicate ports.2 PortInformation.new⟩

def shape (operator : PerOperator S T) : ℕ × ℕ :=
  (operator.targets.length, operator.sources.length)

def port (operator : PerOperator S T) : Port → Option (PortInformation S T)
  | .target port => operator.targets[port]?
  | .source port => operator.sources[port]?

def modify_port (operator : PerOperator S T)
    (change : PortInformation S T → PortInformation S T) : Port → PerOperator S T
  | .target port => { operator with targets := operator.targets.modify port change }
  | .source port => { operator with sources := operator.sources.modify port change }

theorem shape_modify_port (operator : PerOperator S T)
    (change : PortInformation S T → PortInformation S T) (port : Port) :
    (operator.modify_port change port).shape = operator.shape := by
  cases port <;> simp [modify_port, shape]

theorem port_modify_port (operator : PerOperator S T)
    (change : PortInformation S T → PortInformation S T) (first second : Port) :
    (operator.modify_port change first).port second =
      if first = second then (operator.port second).map change else operator.port second := by
  cases first <;> cases second <;>
    simp [modify_port, port, List.getElem?_modify, apply_ite]
  all_goals
    split
    · rfl
    · simp

end PerOperator

/-- The information of one port, if there is such a port. -/
def lookup_port (per_operator : List (PerOperator S T)) (location : Location) :
    Option (PortInformation S T) :=
  per_operator[location.node]?.bind fun operator => operator.port location.port

/-- Change the information of one port. -/
def modify_port (per_operator : List (PerOperator S T)) (location : Location)
    (change : PortInformation S T → PortInformation S T) : List (PerOperator S T) :=
  per_operator.modify location.node fun operator => operator.modify_port change location.port

theorem map_shape_modify_port (per_operator : List (PerOperator S T)) (location : Location)
    (change : PortInformation S T → PortInformation S T) :
    (modify_port per_operator location change).map PerOperator.shape =
      per_operator.map PerOperator.shape := by
  apply List.ext_getElem?
  intro index
  simp only [modify_port, List.getElem?_map, List.getElem?_modify]
  cases per_operator[index]? with
  | none => rfl
  | some operator =>
    by_cases h : location.node = index
    · simp [h, PerOperator.shape_modify_port]
    · simp [h]

@[simp] theorem lookup_modify_port (per_operator : List (PerOperator S T)) (location other : Location)
    (change : PortInformation S T → PortInformation S T) :
    lookup_port (modify_port per_operator location change) other =
      if location = other then (lookup_port per_operator other).map change
      else lookup_port per_operator other := by
  obtain ⟨node, port⟩ := location
  obtain ⟨node', port'⟩ := other
  simp only [lookup_port, modify_port, List.getElem?_modify, Location.mk.injEq]
  cases per_operator[node']? with
  | none => simp
  | some operator =>
    by_cases hnode : node = node'
    · simp [hnode, PerOperator.port_modify_port]
    · simp [hnode]

/-! ### The tracker -/

/-- An interactive tracker of propagated reachability information.  The source clones
    `nodes` and `edges` from the builder; the model keeps the builder. -/
structure Tracker (S T : Type) [Ord T] where
  builder : Builder S
  per_operator : List (PerOperator S T)
  target_changes : ChangeBatch (Target × T)
  source_changes : ChangeBatch (Source × T)
  worklist : Worklist (T × Location)
  pushed_changes : ChangeBatch (Location × T)
  output_changes : List (ChangeBatch T)
  total_counts : ℤ
  shape_eq : per_operator.map PerOperator.shape = builder.shape

namespace Tracker

/-- The port at a location. -/
def port (tracker : Tracker S T) (location : Location) : Option (PortInformation S T) :=
  lookup_port tracker.per_operator location

/-- Change the port at a location. -/
def modify_port (tracker : Tracker S T) (location : Location)
    (change : PortInformation S T → PortInformation S T) : Tracker S T :=
  { tracker with
    per_operator := Timely.modify_port tracker.per_operator location change
    shape_eq := by rw [map_shape_modify_port, tracker.shape_eq] }

def set_pointstamps (tracker : Tracker S T) (location : Location) (pointstamps : MutableAntichain T) :
    Tracker S T :=
  tracker.modify_port location fun port => { port with pointstamps := pointstamps }

def set_implications (tracker : Tracker S T) (location : Location)
    (implications : MutableAntichain T) : Tracker S T :=
  tracker.modify_port location fun port => { port with implications := implications }

def set_summaries (tracker : Tracker S T) (location : Location)
    (output_summaries : List (Antichain S)) : Tracker S T :=
  tracker.modify_port location fun port => { port with output_summaries := output_summaries }

theorem port_isSome (tracker : Tracker S T) (location : Location) :
    (tracker.port location).isSome ↔ tracker.builder.has_location location = true := by
  have hshape : (tracker.builder.shape)[location.node]? =
      (tracker.per_operator[location.node]?).map PerOperator.shape := by
    rw [← tracker.shape_eq, List.getElem?_map]
  unfold port lookup_port Builder.has_location
  rw [hshape]
  obtain ⟨node, port⟩ := location
  cases tracker.per_operator[node]? with
  | none => simp
  | some operator => cases port <;> simp [PerOperator.port, PerOperator.shape]

variable [LinearExtension T]

/-! ### Buffering updates -/

/-- Updates the count for a time at a target (operator input, scope output). -/
def update_target (tracker : Tracker S T) (target : Target) (time : T) (value : ℤ) : Tracker S T :=
  { tracker with target_changes := tracker.target_changes.update (target, time) value }

/-- Updates the count for a time at a source (operator output, scope input). -/
def update_source (tracker : Tracker S T) (source : Source) (time : T) (value : ℤ) : Tracker S T :=
  { tracker with source_changes := tracker.source_changes.update (source, time) value }

/-- Updates the count for a time at a location. -/
def update (tracker : Tracker S T) (location : Location) (time : T) (value : ℤ) : Tracker S T :=
  match location.port with
  | .target port => tracker.update_target ⟨location.node, port⟩ time value
  | .source port => tracker.update_source ⟨location.node, port⟩ time value

/-- Indicates if any pointstamps have positive count. -/
def tracking_anything (tracker : Tracker S T) : Bool :=
  !tracker.source_changes.is_empty.1 || !tracker.target_changes.is_empty.1 ||
    decide (0 < tracker.total_counts)

/-- Indicates if a removal at the time would be visible in the implications: no other time
    dominates it, and no other count stands in for it. -/
def is_global (tracker : Tracker S T) (location : Location) (time : T) : Option Bool :=
  (tracker.port location).map fun port =>
    let dominated := port.implications.frontier.any (less_than · time)
    let redundant := decide (1 < port.implications.count_for time)
    !dominated && !redundant

/-! ### Allocation -/

section Allocate

variable [PartialOrder S] [DecidableLE S] [PathSummary S T]

/-- Store the summaries of one location: those of scope inputs summarize the scope, those of
    internal ports project capabilities. -/
def store_summaries (state : Tracker S T × List (List (Antichain S)))
    (entry : Location × List (Antichain S)) : Option (Tracker S T × List (List (Antichain S))) :=
  match entry with
  | (location, summaries) =>
    if location.node = 0 then
      match location.port with
      | .source port =>
        if port < state.2.length then some (state.1, state.2.set port summaries) else none
      | .target _ => some state
    else if (state.1.port location).isSome then
      some (state.1.set_summaries location summaries, state.2)
    else none

/-- A tracker with empty ports. -/
def empty (builder : Builder S) (scope_outputs : ℕ) : Tracker S T where
  builder := builder
  per_operator := builder.shape.map PerOperator.new
  target_changes := ChangeBatch.new
  source_changes := ChangeBatch.new
  worklist := Worklist.new
  pushed_changes := ChangeBatch.new
  output_changes := List.replicate scope_outputs ChangeBatch.new
  total_counts := 0
  shape_eq := by
    rw [List.map_map]
    conv_rhs => rw [← List.map_id builder.shape]
    exact List.map_congr_left fun ports _ => by simp [PerOperator.new, PerOperator.shape]

/-- Allocate a new `Tracker`, with the summaries from each scope input to each scope output. -/
def allocate_from (builder : Builder S) (fuel : ℕ) :
    Option (Tracker S T × List (List (Antichain S))) :=
  match builder.shape[0]? with
  | none => none
  | some (scope_outputs, scope_inputs) =>
    match builder.summarize_outputs fuel with
    | none => none
    | some output_summaries =>
      (output_summaries.entries.map fun entry => (entry.1, entry.2)).foldlM store_summaries
        (empty builder scope_outputs, List.replicate scope_inputs [])

end Allocate

variable [PathSummary S T]

/-! ### Step 1: frontier changes of the pointstamps -/

/-- Send a frontier change along the summaries to each scope output. -/
def project_change (change : T × ℤ) :
    List (Antichain S) → List (ChangeBatch T) → Option (List (ChangeBatch T))
  | [], output_changes => some output_changes
  | _ :: _, [] => none
  | summaries :: rest, output :: output_changes =>
    (project_change change rest output_changes).map fun projected =>
      (summaries.elements.filterMap fun summary => PathSummary.results_in summary change.1).foldl
        (fun kept out_time => kept.update out_time change.2) output :: projected

/-- React to one change of the pointstamp frontier at a location. -/
def record_change (location : Location) (output_summaries : List (Antichain S))
    (tracker : Tracker S T) (change : T × ℤ) : Option (Tracker S T) :=
  (project_change change output_summaries tracker.output_changes).map fun output_changes =>
    { tracker with
      total_counts := tracker.total_counts + change.2
      output_changes := output_changes
      worklist := tracker.worklist.push ((change.1, location), change.2) }

/-- Move one buffered update through the pointstamps of its port. -/
def apply_change (tracker : Tracker S T) (location : Location) (update : T × ℤ) :
    Option (Tracker S T) :=
  match tracker.port location with
  | none => none
  | some port =>
    let changed := port.pointstamps.update_iter [update]
    changed.1.foldlM (record_change location port.output_summaries)
      (tracker.set_pointstamps location changed.2)

/-- Drain the buffered target changes. -/
def drain_target_changes (tracker : Tracker S T) : Option (Tracker S T) :=
  tracker.target_changes.drain.1.foldlM
    (fun tracker change =>
      tracker.apply_change (Location.from_target change.1.1) (change.1.2, change.2))
    { tracker with target_changes := tracker.target_changes.drain.2 }

/-- Drain the buffered source changes. -/
def drain_source_changes (tracker : Tracker S T) : Option (Tracker S T) :=
  tracker.source_changes.drain.1.foldlM
    (fun tracker change =>
      tracker.apply_change (Location.from_source change.1.1) (change.1.2, change.2))
    { tracker with source_changes := tracker.source_changes.drain.2 }

/-! ### Step 2: circulation of the implications -/

/-- Send one change of an implication frontier along the edges or summaries of its port. -/
def circulate_change (location : Location) (tracker : Tracker S T) (change : T × ℤ) :
    Tracker S T :=
  { tracker with
    worklist := ((tracker.builder.implied location change.1).map fun next =>
      (next, change.2)).foldl Worklist.push tracker.worklist
    pushed_changes := tracker.pushed_changes.update (location, change.1) change.2 }

/-- One iteration: act on the net change of the least time and location. -/
def circulate_step (tracker : Tracker S T) (entry : (T × Location) × ℤ)
    (rest : Worklist (T × Location)) : Option (Tracker S T) :=
  let popped := { tracker with worklist := rest }
  if entry.2 = 0 then some popped
  else
    match tracker.port entry.1.2 with
    | none => none
    | some port =>
      let changed := port.implications.update_iter [(entry.1.1, entry.2)]
      some (changed.1.foldl (circulate_change entry.1.2)
        (popped.set_implications entry.1.2 changed.2))

/-- Iterate until the worklist is empty. -/
def circulate : ℕ → Tracker S T → Option (Tracker S T)
  | 0, tracker => if tracker.worklist.next.isNone then some tracker else none
  | fuel + 1, tracker =>
    match tracker.worklist.next with
    | none => some tracker
    | some (entry, rest) => (tracker.circulate_step entry rest).bind (circulate fuel)

/-- Propagates all pending updates, in at most `fuel` iterations. -/
def propagate_all (fuel : ℕ) (tracker : Tracker S T) : Option (Tracker S T) :=
  (tracker.drain_target_changes.bind drain_source_changes).bind (circulate fuel)

/-- `propagate_all` ends, in the given tracker. -/
def Propagates (tracker after : Tracker S T) : Prop :=
  ∃ fuel, tracker.propagate_all fuel = some after

end Tracker

end Timely
