/-
  Timely/GenericOperator.lean
  ===========================
  **Operators of general shape** (`timely/src/dataflow/operators/generic/builder_rc.rs`,
  `generic/handles.rs` and `generic/builder_raw.rs`).

  The logic of an operator is a program that its author has written.  It reaches the
  inputs, the outputs and the capabilities of the operator through handles only: it
  takes messages from an input, each with a reference to a capability; makes, keeps and
  drops capabilities; and sends in sessions that it opens with either.  Around each run
  of the logic the operator moves frontier changes to its frontiers, and its counts to
  the progress that it shares with its parent.  A result `none` is a panic.
-/
import Timely.Library.Interaction
import Timely.CapabilityRuns
import Timely.Pullers
import Timely.Frontier
import Timely.Subgraph

set_option linter.unusedSectionVars false

namespace Timely

open Library

variable {σ T D : Type} [PartialOrder T] [DecidableLE T] [DecidableEq T] [Ord T] [LinearExtension T]

/-! ### Handles -/

/-- An output buffer, and the batch that accounts for the capabilities for the output. -/
structure OutputWrapper (T D : Type) [Ord T] where
  push_buffer : Buffer T D
  internal_buffer : Internal

namespace OutputWrapper

/-- The counts of records sent. -/
def produced (wrapper : OutputWrapper T D) : ChangeBatch T := wrapper.push_buffer.pusher.produced

/-- Put a batch in place of the counts. -/
def with_produced (wrapper : OutputWrapper T D) (counts : ChangeBatch T) : OutputWrapper T D :=
  { wrapper with
    push_buffer :=
      { wrapper.push_buffer with pusher := { wrapper.push_buffer.pusher with produced := counts } } }

end OutputWrapper

/-- Put a batch in place of the counts of records taken from an input. -/
def PullCounter.with_consumed (counter : PullCounter T D) (counts : ChangeBatch T) : PullCounter T D :=
  { counter with consumed := counts }

/-- Whether a capability is for an output. -/
def Capability.valid_for_output (capability : Capability T) (query_buffer : Internal) : Bool :=
  decide (capability.internal = query_buffer)

/-- Whether a reference to a capability is for an output, among those of its operator. -/
def CapabilityRef.valid_for_output (capability : CapabilityRef T) (query_buffer : Internal) : Bool :=
  capability.internal.any fun rc => decide (rc = query_buffer)

/-- What a session is opened with: a capability, or a reference that came with a message. -/
inductive Grip (T : Type) where
  | owned (place : Place)
  | reference (time : T)

/-- What is provided to a session. -/
inductive Provision (D : Type) where
  | give (data : D)
  | give_iterator (items : List D)
  | give_vec (message : List D)

/-- What the logic of an operator may call. -/
inductive LogicCall (T D : Type) where
  | next (input : ℕ)
  | capability (call : CapabilityCall T)
  | activate (output : ℕ)
  | session (output : ℕ) (cap : Grip T) (provisions : List (Provision D))
  | release (output : ℕ)

/-- The parts of an operator that its logic has handles for; the references that it has been given in a
    run, each with its input; and the outputs that it has activated and not yet released. -/
structure Handles (T D : Type) [Ord T] where
  inputs : List (PullCounter T D)
  outputs : List (OutputWrapper T D)
  holder : Holder T
  references : List (ℕ × T)
  active : List ℕ

/-- The time of the reference that a call uses, if it uses one. -/
def CapabilityCall.reference : CapabilityCall T → Option T
  | .retain _ time _ => some time
  | .delayed_ref _ time _ _ => some time
  | _ => none

namespace Session

/-- One call on a session. -/
def provide (session : Session T D) : Provision D → Session T D
  | .give data => session.give data
  | .give_iterator items => session.give_iterator items
  | .give_vec message => session.give_vec message

end Session

namespace Handles

/-- Whether there is a reference at a time. -/
def refers_to (handles : Handles T D) (time : T) : Bool :=
  handles.references.any fun reference => decide (reference.2 = time)

/-- The time of what a session is opened with, where this is valid for the output. -/
def session_time (handles : Handles T D) (query_buffer : Internal) : Grip T → Option T
  | .owned place =>
    (handles.holder.borrow place).bind fun capability =>
      if capability.valid_for_output query_buffer then some capability.time else none
  | .reference time =>
    (handles.holder.operators[0]?).bind fun core =>
      if handles.refers_to time && (CapabilityRef.mk time core.internal).valid_for_output query_buffer then
        some time
      else none

/-- Change what is behind an output. -/
def with_buffer (handles : Handles T D) (output : ℕ) (wrapper : OutputWrapper T D) (buffer : Buffer T D) :
    Handles T D :=
  { handles with outputs := handles.outputs.set output { wrapper with push_buffer := buffer } }

/-- The buffer ceases when the handle to an output is dropped. -/
def drop_output (handles : Handles T D) (output : ℕ) : Option (Handles T D) :=
  (handles.outputs[output]?).map fun wrapper =>
    handles.with_buffer output wrapper wrapper.push_buffer.cease

/-- One call of the logic, and what it replies; `none` where it panics, or where the logic has nothing to
    make this call with. -/
def perform (handles : Handles T D) : LogicCall T D → Option (Option (Message T D) × Handles T D)
  | .next input =>
    (handles.inputs[input]?).map fun pull_counter =>
      (pull_counter.next.1,
        { handles with
          inputs := handles.inputs.set input pull_counter.next.2
          references := handles.references ++
            (pull_counter.next.1.map fun message => (input, message.time)).toList })
  | .capability call =>
    if call.reference.all handles.refers_to then
      (handles.holder.perform call).map fun holder => (none, { handles with holder := holder })
    else none
  | .activate output =>
    if output < handles.outputs.length ∧ output ∉ handles.active then
      some (none, { handles with active := output :: handles.active })
    else none
  | .session output cap provisions =>
    if output ∈ handles.active then
      (handles.outputs[output]?).bind fun wrapper =>
        (handles.session_time wrapper.internal_buffer cap).map fun time =>
          (none, handles.with_buffer output wrapper
            (provisions.foldl Session.provide (wrapper.push_buffer.session time)).buffer)
    else none
  | .release output =>
    if output ∈ handles.active then
      (handles.drop_output output).map fun dropped =>
        (none, { dropped with active := dropped.active.erase output })
    else none

/-- When the logic returns, it has dropped the handles of all outputs. -/
def drop_outputs (handles : Handles T D) : Option (Handles T D) :=
  (handles.active.foldlM drop_output handles).map fun dropped => { dropped with active := [] }

end Handles

/-! ### Operators -/

/-- An operator with its logic, and what will have arrived at its inputs whenever it is scheduled next. -/
structure GenericOperator (σ T D : Type) [Ord T] where
  logic : σ → List (MutableAntichain T) → Interaction (LogicCall T D) (Option (Message T D)) (σ × Bool)
  state : σ
  frontier : List (MutableAntichain T)
  handles : Handles T D
  arrivals : List (List (List (Message T D)))

namespace GenericOperator

/-- Messages arrive at the inputs. -/
def arrive (operator : GenericOperator σ T D) : GenericOperator σ T D :=
  match operator.arrivals with
  | [] => operator
  | arrived :: arrivals =>
    { operator with
      handles :=
        { operator.handles with
          inputs := operator.handles.inputs.mapIdx fun input pull_counter =>
            { pull_counter with pullable := pull_counter.pullable ++ arrived.getD input [] } }
      arrivals := arrivals }

/-- Drain the frontier changes of one input. -/
def drain_frontier (state : List (MutableAntichain T) × List (ChangeBatch T)) (index : ℕ) :
    Option (List (MutableAntichain T) × List (ChangeBatch T)) :=
  (state.1[index]?).bind fun frontier =>
    (state.2[index]?).map fun changes =>
      (state.1.set index (frontier.update_iter changes.drain.1).2, state.2.set index changes.drain.2)

/-- Move one batch of counts to the shared progress. -/
def move_counts (state : List (ChangeBatch T) × List (ChangeBatch T)) (index : ℕ) :
    Option (List (ChangeBatch T) × List (ChangeBatch T)) :=
  (state.1[index]?).bind fun counts =>
    (state.2[index]?).map fun changes =>
      (state.1.set index (counts.drain_into changes).1, state.2.set index (counts.drain_into changes).2)

/-- Move as many batches of counts as the shared progress has. -/
def move_all (counts changes : List (ChangeBatch T)) :
    Option (List (ChangeBatch T) × List (ChangeBatch T)) :=
  (List.range changes.length).foldlM move_counts (counts, changes)

/-- Report what the handles have counted. -/
def report (handles : Handles T D) (progress : SharedProgress T) :
    Option (Handles T D × SharedProgress T) :=
  (move_all (handles.inputs.map PullCounter.consumed) progress.consumeds).bind fun consumed =>
    (handles.holder.operators[0]?).bind fun core =>
      ({ core with internals := progress.internals }.move_internals handles.holder.cells).bind fun moved =>
        (move_all (handles.outputs.map OutputWrapper.produced) progress.produceds).bind fun produced =>
          some ({ handles with
              inputs := List.zipWith PullCounter.with_consumed handles.inputs consumed.1
              outputs := List.zipWith OutputWrapper.with_produced handles.outputs produced.1
              holder := { handles.holder with cells := moved.2 }
              references := [] },
            { progress with
              consumeds := consumed.2
              internals := moved.1.internals
              produceds := produced.2 })

/-- Schedule the operator: drain frontier changes, invoke the logic, and report. -/
def raw_logic (operator : GenericOperator σ T D) (progress : SharedProgress T) :
    Option (Bool × GenericOperator σ T D × SharedProgress T) :=
  ((List.range progress.frontiers.length).foldlM drain_frontier
      (operator.frontier, progress.frontiers)).bind fun drained =>
    ((operator.logic operator.state drained.1).perform Handles.perform operator.arrive.handles).bind
      fun returned =>
      returned.2.drop_outputs.bind fun handles =>
        (report handles { progress with frontiers := drained.2 }).map fun reported =>
          (returned.1.2,
            { operator.arrive with
              state := returned.1.1
              frontier := drained.1
              handles := reported.1 },
            reported.2)

/-- Setting the external summary schedules the operator. -/
instance : Operate (GenericOperator σ T D) T where
  schedule := raw_logic
  set_external_summary operator progress :=
    (operator.raw_logic progress).map fun outcome => (outcome.2.1, outcome.2.2)

end GenericOperator

end Timely
