/-
  Timely/Sequencer.lean
  =====================
  **The sequencer** (`timely/src/synchronization/sequence.rs`).

  Each worker broadcasts what is pushed at it under the time of its clock.  The
  sink of each worker sorts what has arrived by the triple of time, worker and
  counter, and releases what its frontier has passed.  The worker in the triple
  is the one that receives the element, not the one that has sent it: at one
  sink it is the same for all elements, and two elements of different workers
  with one time and one counter stay in the order of their arrival.

  Frontiers may take any value that progress tracking allows: none beyond a
  capability or an element that is still under way.
-/
import Timely.Library.Run
import Timely.Library.Sorted
import Mathlib.Data.Prod.Lex
import Mathlib.Data.List.Range

set_option linter.unusedSectionVars false

namespace Timely

open Library

namespace Sequencer

/-! ### The dataflow -/

/-- A record on its way to a sink: its time, the worker it is for, its counter and element. -/
structure Message (Time T : Type) where
  time : Time
  worker : ℕ
  counter : ℕ
  element : T
deriving DecidableEq

/-- The part of a worker: its queues, the state of its source and of its sink, and, for the
    record, what has been pushed and what has been returned. -/
structure Worker (Time T : Type) where
  send : List T
  recv : List T
  present : Bool
  capability : Option Time
  counter : ℕ
  catchup_until : Option Time
  queue : List (Message Time T)
  recvd : List (Message Time T)
  frontier : Option Time
  pushed : List T
  returned : List T

/-- A record as its source has emitted it. -/
structure Emitted (peers : ℕ) (Time T : Type) where
  source : Fin peers
  time : Time
  counter : ℕ
  element : T

/-- All workers, with the messages on their way to each, and all records emitted so far. -/
structure State (peers : ℕ) (Time T : Type) where
  workers : Fin peers → Worker Time T
  in_flight : Fin peers → List (Message Time T)
  emitted : List (Emitted peers Time T)

variable {Time T : Type} [LinearOrder Time] {peers : ℕ}

/-- The order of the triples of time, worker and counter. -/
def sortKey (message : Message Time T) : Time ×ₗ ℕ ×ₗ ℕ :=
  toLex (message.time, toLex (message.worker, message.counter))

/-- The time and counter of a message. -/
def stamp (message : Message Time T) : Time ×ₗ ℕ := toLex (message.time, message.counter)

namespace Worker

/-- A worker whose sequencer has been preloaded with a queue of elements. -/
def preloaded (start : Time) (preload : List T) : Worker Time T where
  send := []
  recv := preload
  present := true
  capability := some start
  counter := 0
  catchup_until := none
  queue := []
  recvd := []
  frontier := some start
  pushed := []
  returned := []

/-- Adds an element to the shared log. -/
def push (worker : Worker Time T) (element : T) : Worker Time T :=
  { worker with send := worker.send ++ [element], pushed := worker.pushed ++ [element] }

/-- The next element of the log. -/
def next (worker : Worker Time T) : Worker Time T :=
  match worker.recv with
  | [] => worker
  | element :: recv => { worker with recv := recv, returned := worker.returned ++ [element] }

/-- One invocation of the source, with the reading of the timer: downgrade the capability, and
    drain the proposed elements, each with its counter.  A source whose sequencer is gone drops
    its capability. -/
def source (worker : Worker Time T) (elapsed : Time) : Option (Worker Time T × List (T × ℕ)) :=
  if worker.present then
    match worker.capability with
    | none => none
    | some capability =>
      if capability ≤ elapsed then
        some
          ({ worker with
              capability := some elapsed
              send := []
              counter := worker.counter + worker.send.length
              catchup_until := worker.catchup_until.filter (elapsed < ·) },
            worker.send.zipIdx worker.counter)
      else none
  else some ({ worker with capability := none }, [])

/-- Whether the frontier is at most a time; the empty frontier is not. -/
def reached (worker : Worker Time T) (time : Time) : Bool := worker.frontier.any (· ≤ time)

/-- One invocation of the sink: queue up what has arrived, sort, and release what the frontier
    has passed. -/
def sink (worker : Worker Time T) : Worker Time T :=
  let recvd := (worker.recvd ++ worker.queue).insertionSort fun first second =>
    sortKey first ≤ sortKey second
  let count := (recvd.filter fun message => !worker.reached message.time).length
  { worker with
    queue := []
    recvd := recvd.drop count
    catchup_until :=
      match recvd.getLast? with
      | some last => some last.time
      | none => worker.catchup_until
    recv :=
      if worker.present then worker.recv ++ (recvd.take count).map Message.element else worker.recv }

end Worker

/-- What the session of the source gives: every element for every worker. -/
def broadcast (peers : ℕ) (time : Time) (elements : List (T × ℕ)) : List (Message Time T) :=
  elements.flatMap fun entry =>
    (List.range peers).map fun worker_index => ⟨time, worker_index, entry.2, entry.1⟩

namespace State

/-- All workers with the same preloaded queue. -/
def preloaded (start : Time) (preload : List T) : State peers Time T where
  workers _ := Worker.preloaded start preload
  in_flight _ := []
  emitted := []

/-- Change one worker. -/
def set (state : State peers Time T) (index : Fin peers) (worker : Worker Time T) :
    State peers Time T :=
  { state with workers := Function.update state.workers index worker }

/-- The messages that the sink of a worker has not read. -/
def unread (state : State peers Time T) (index : Fin peers) : List (Message Time T) :=
  (state.workers index).queue ++ state.in_flight index

/-- No capability and no unread message for the worker lies before the frontier. -/
def Safe (state : State peers Time T) (index : Fin peers) : Option Time → Prop
  | some frontier =>
    (∀ other, ∀ capability ∈ (state.workers other).capability, frontier ≤ capability) ∧
      ∀ message ∈ state.unread index, frontier ≤ message.time
  | none => (∀ other, (state.workers other).capability = none) ∧ state.unread index = []

instance (state : State peers Time T) (index : Fin peers) (frontier : Option Time) :
    Decidable (state.Safe index frontier) :=
  match frontier with
  | some frontier =>
    inferInstanceAs (Decidable
      ((∀ other, ∀ capability ∈ (state.workers other).capability, frontier ≤ capability) ∧
        ∀ message ∈ state.unread index, frontier ≤ message.time))
  | none =>
    decidable_of_iff ((∀ other, ((state.workers other).capability).isNone = true) ∧
      (state.unread index).isEmpty = true)
      (and_congr (forall_congr' fun _ => Option.isNone_iff_eq_none) List.isEmpty_iff)

end State

/-- What happens to the workers, in any order. -/
inductive Event (peers : ℕ) (Time T : Type) where
  | push (index : Fin peers) (element : T)
  | next (index : Fin peers)
  | drop (index : Fin peers)
  | source (index : Fin peers) (elapsed : Time)
  | arrive (index : Fin peers) (position : ℕ)
  | advance (index : Fin peers) (frontier : Option Time)
  | sink (index : Fin peers)

/-- The outcome of an event; `none` where it cannot happen. -/
def step (state : State peers Time T) : Event peers Time T → Option (State peers Time T)
  | .push index element =>
    if (state.workers index).present then
      some (state.set index ((state.workers index).push element))
    else none
  | .next index =>
    if (state.workers index).present then some (state.set index (state.workers index).next) else none
  | .drop index => some (state.set index { state.workers index with present := false })
  | .source index elapsed =>
    ((state.workers index).source elapsed).map fun outcome =>
      { workers := Function.update state.workers index outcome.1
        in_flight := fun target => state.in_flight target ++
          (broadcast peers elapsed outcome.2).filter fun message => message.worker = target.val
        emitted := state.emitted ++ outcome.2.map fun entry => ⟨index, elapsed, entry.2, entry.1⟩ }
  | .arrive index position =>
    (state.in_flight index)[position]?.map fun message =>
      { state with
        workers := Function.update state.workers index
          { state.workers index with queue := (state.workers index).queue ++ [message] }
        in_flight := Function.update state.in_flight index ((state.in_flight index).eraseIdx position) }
  | .advance index frontier =>
    if state.Safe index frontier then
      some (state.set index { state.workers index with frontier := frontier })
    else none
  | .sink index => some (state.set index (state.workers index).sink)

/-! ### Ties -/

/-- The source emits no time and counter that another worker has emitted. -/
def Untied (state : State peers Time T) : Event peers Time T → Prop
  | .source index elapsed =>
    ∀ record ∈ state.emitted, record.source ≠ index → record.time = elapsed →
      record.counter < (state.workers index).counter ∨
        (state.workers index).counter + (state.workers index).send.length ≤ record.counter
  | _ => True

instance (state : State peers Time T) (event : Event peers Time T) : Decidable (Untied state event) :=
  match event with
  | .source index elapsed =>
    inferInstanceAs (Decidable (∀ record ∈ state.emitted, record.source ≠ index →
      record.time = elapsed → record.counter < (state.workers index).counter ∨
        (state.workers index).counter + (state.workers index).send.length ≤ record.counter))
  | .push _ _ | .next _ | .drop _ | .arrive _ _ | .advance _ _ | .sink _ => isTrue trivial

/-- One step without ties. -/
def UntiedStep (state : State peers Time T) (event : Event peers Time T)
    (after : State peers Time T) : Prop :=
  Untied state event ∧ step state event = some after

/-! ### What a worker has of a record -/

/-- The message for one worker. -/
def Emitted.message (target : Fin peers) (record : Emitted peers Time T) : Message Time T :=
  ⟨record.time, target.val, record.counter, record.element⟩

def Emitted.stamp (record : Emitted peers Time T) : Time ×ₗ ℕ := toLex (record.time, record.counter)

/-- Each worker gets each element once. -/
theorem filter_broadcast (time : Time) (elements : List (T × ℕ)) (target index : Fin peers) :
    ((broadcast peers time elements).filter fun message => decide (message.worker = target.val)) =
      (elements.map fun entry => (⟨index, time, entry.2, entry.1⟩ : Emitted peers Time T)).map
        (Emitted.message target) := by
  unfold broadcast
  rw [List.filter_flatMap, List.map_map]
  induction elements with
  | nil => rfl
  | cons entry elements ih =>
    have hone : (((List.range peers).map fun worker_index =>
        (⟨time, worker_index, entry.2, entry.1⟩ : Message Time T)).filter
          fun message => decide (message.worker = target.val)) = [⟨time, target.val, entry.2, entry.1⟩] := by
      rw [List.filter_map]
      have hrange : ((List.range peers).filter fun worker_index => decide (worker_index = target.val)) =
          [target.val] := by
        apply List.perm_singleton.mp
        apply (List.perm_ext_iff_of_nodup (List.nodup_range.filter _) (List.nodup_singleton _)).mpr
        intro worker_index
        simp only [List.mem_filter, List.mem_range, decide_eq_true_eq, List.mem_singleton]
        constructor
        · exact fun h => h.2
        · rintro rfl
          exact ⟨target.isLt, rfl⟩
      exact congrArg (List.map fun worker_index =>
        (⟨time, worker_index, entry.2, entry.1⟩ : Message Time T)) hrange
    rw [List.flatMap_cons, hone, ih]
    rfl

end Sequencer

end Timely
