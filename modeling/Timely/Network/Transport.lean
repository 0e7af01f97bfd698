/-
  Timely/Network/Transport.lean
  =============================
  **Workers, their queues, and the streams between processes**
  (`allocator/zero_copy`).

  Each process has a send loop and a receive loop for every other process, and a
  number of workers.  A worker has an endpoint for each remote process, and a
  queue from it.  All parties step at any time; a loop that locks one queue after
  the other is several steps, and so is the hand-over of what a read has staged.
-/
import Timely.Network.MergeQueue
import Timely.Network.RecvLoop
import Timely.Network.TcpAllocator
import Timely.Library.Run

set_option linter.unusedSectionVars false

namespace Timely.Network

/-! ### Who is connected to whom -/

/-- How many processes there are, and workers in each.  The index of a worker is a word. -/
structure Cluster where
  processes : ℕ
  threads : ℕ
  threads_pos : 0 < threads
  peers_le : threads * processes ≤ UInt64.size

namespace Cluster

variable (cluster : Cluster)

def peers : ℕ := cluster.threads * cluster.processes

/-- The process of a worker. -/
def process (index : ℕ) : ℕ := index / cluster.threads

/-- The first worker of a process. -/
def worker_offset (process : ℕ) : ℕ := cluster.threads * process

/-- The position of a remote process among the endpoints, where the own one is left out. -/
def slot (own process_id : ℕ) : ℕ := if process_id > own then process_id - 1 else process_id

/-- The process that a socket is connected to, where the own one is left out. -/
def socket (own position : ℕ) : ℕ := if position < own then position else position + 1

theorem socket_slot {own process_id : ℕ} (h : process_id ≠ own) :
    socket own (slot own process_id) = process_id := by
  unfold socket slot
  split_ifs <;> omega

theorem socket_inj {own position position' : ℕ} (h : socket own position = socket own position') :
    position = position' := by
  unfold socket at h
  split_ifs at h <;> omega

variable {cluster}

theorem process_eq_iff {index process : ℕ} :
    cluster.process index = process ↔ cluster.worker_offset process ≤ index
      ∧ index < cluster.worker_offset process + cluster.threads := by
  rw [Cluster.process, Nat.div_eq_iff cluster.threads_pos, worker_offset, Nat.mul_comm process]
  have := cluster.threads_pos
  omega

/-- A worker by its number within its process. -/
theorem process_offset_add (process : ℕ) {index : ℕ} (h : index < cluster.threads) :
    cluster.process (cluster.worker_offset process + index) = process :=
  process_eq_iff.mpr ⟨Nat.le_add_right _ _, Nat.add_lt_add_left h _⟩

end Cluster

/-! ### States -/

/-- A stream from one process to another, with the send loop and the receive loop at its ends. -/
structure Link where
  /-- The workers whose queues may still be added to. -/
  sources : List ℕ
  stash : List (List UInt8)
  /-- What was written, and not read. -/
  wire : List UInt8
  /-- Whether the stream was shut down. -/
  closed : Bool
  /-- The valid bytes of the receiver's buffer. -/
  valid : List UInt8
  active : Bool
  stageds : RecvLoop.Stageds
  /-- The queues to the workers. -/
  targets : RecvLoop.Stageds

namespace Link

/-- One turn of the receive loop, up to the hand-over.  It has no result where it panics. -/
def recv (codec : Codec) (worker_offset threads : ℕ) (link : Link) (read : ℕ) : Option Link :=
  let ended := (link.wire.drop read).isEmpty && link.closed
  (RecvLoop.carve codec worker_offset threads ended (link.valid ++ link.wire.take read)
    link.stageds link.active).map fun (valid, stageds, active) =>
      { link with wire := link.wire.drop read, valid, stageds, active }

/-- Passes bytes along to a target. -/
def hand_over (merges : List Bool) (link : Link) (index : ℕ) : Link :=
  { link with
    stageds := Function.update link.stageds index []
    targets := Function.update link.targets index
      (MergeQueue.extend merges (link.targets index) (link.stageds index)) }

end Link

/-- The state of all workers and streams. -/
structure Transport where
  /-- The pushers of a worker, by channel and target. -/
  pushers : ℕ × UInt64 × ℕ → Option Pusher
  /-- The endpoints of a worker, for each of the remote processes. -/
  endpoints : ℕ × ℕ → SendEndpoint
  /-- The workers that have dropped their endpoints. -/
  dropped : ℕ → Bool
  links : ℕ × ℕ → Link
  workers : ℕ → TcpAllocator

namespace Transport

variable (codec : Codec) (cluster : Cluster)

def start : Transport where
  pushers := fun _ => none
  endpoints := fun _ => SendEndpoint.new
  dropped := fun _ => false
  links := fun (process, _) =>
    { sources := (List.range cluster.threads).map (cluster.worker_offset process + ·)
      stash := [], wire := [], closed := false
      valid := [], active := true, stageds := fun _ => [], targets := fun _ => [] }
  workers := fun _ => TcpAllocator.new

/-- The pushers for a new channel, to all workers of other processes. -/
def new_pusher (index : ℕ) (identifier : UInt64) (target_index : ℕ) : Option Pusher :=
  if target_index < cluster.peers ∧ cluster.process target_index ≠ cluster.process index then
    some { header :=
      { channel := identifier
        source := UInt64.ofNat index
        target := UInt64.ofNat target_index
        length := 0
        seqno := 0 } }
  else none

/-- Publishes all outbound bytes of a worker. -/
def publish (state : Transport) (index : ℕ) (merges : ℕ → List Bool) : ℕ × ℕ → SendEndpoint :=
  fun (worker, slot) =>
    if worker = index then (state.endpoints (worker, slot)).publish (merges slot)
    else state.endpoints (worker, slot)

/-- All input handles to a worker's queue have dropped, and the queue is empty. -/
def is_complete (state : Transport) (slot worker : ℕ) : Bool :=
  state.dropped worker && (state.endpoints (worker, slot)).send.isEmpty

/-! ### Steps -/

/-- Who does what.  The loops are named by their process, and the number of their socket. -/
inductive Label where
  | allocate (worker : ℕ) (channel : UInt64)
  | push (worker : ℕ) (channel : UInt64) (target : ℕ) (payload : List UInt8)
  | release (worker : ℕ)
  | drop_endpoints (worker : ℕ)
  | drain (worker slot : ℕ)
  | write (process slot : ℕ)
  | retain (process slot : ℕ)
  | shutdown (process slot : ℕ)
  | read (process slot bytes : ℕ)
  | hand_over (process slot index : ℕ)
  | drain_recv (worker slot : ℕ)
  | receive (worker : ℕ)
  | pull (worker : ℕ) (channel : UInt64) (payload : List UInt8)
  | drop_puller (worker : ℕ) (channel : UInt64)

/-- The stream that a send loop writes to. -/
def outbound (process slot : ℕ) : ℕ × ℕ := (process, Cluster.socket process slot)

/-- The stream that a receive loop reads from. -/
def inbound (process slot : ℕ) : ℕ × ℕ := (Cluster.socket process slot, process)

inductive Step : Transport → Label → Transport → Prop
  | allocate {state index identifier allocator'} :
      index < cluster.peers → state.dropped index = false →
      (state.workers index).allocate identifier = some allocator' →
      Step state (.allocate index identifier)
        { state with
          pushers := fun (worker, channel, target) =>
            if worker = index ∧ channel = identifier then new_pusher cluster index identifier target
            else state.pushers (worker, channel, target)
          workers := Function.update state.workers index allocator' }
  | push {state index channel target payload pusher pusher' endpoint' room merges merges' rest} :
      state.pushers (index, channel, target) = some pusher →
      pusher.push codec
        (state.endpoints (index, Cluster.slot (cluster.process index) (cluster.process target)))
        payload room merges merges' rest = some (pusher', endpoint') →
      Step state (.push index channel target payload)
        { state with
          pushers := Function.update state.pushers (index, channel, target) (some pusher')
          endpoints := Function.update state.endpoints
            (index, Cluster.slot (cluster.process index) (cluster.process target)) endpoint' }
  | release {state index} (merges) :
      Step state (.release index) { state with endpoints := state.publish index merges }
  | drop_endpoints {state index} (merges) :
      Step state (.drop_endpoints index)
        { state with
          pushers := fun (worker, channel, target) =>
            if worker = index then none else state.pushers (worker, channel, target)
          endpoints := state.publish index merges
          dropped := Function.update state.dropped index true }
  | drain {state index slot vec queue} :
      index ∈ (state.links (outbound (cluster.process index) slot)).sources →
      MergeQueue.drain_into (state.endpoints (index, slot)).send
        (state.links (outbound (cluster.process index) slot)).stash = (vec, queue) →
      Step state (.drain index slot)
        { state with
          endpoints := Function.update state.endpoints (index, slot)
            { state.endpoints (index, slot) with send := queue }
          links := Function.update state.links (outbound (cluster.process index) slot)
            { state.links (outbound (cluster.process index) slot) with stash := vec } }
  | write {state process slot bytes stash} :
      (state.links (outbound process slot)).stash = bytes :: stash →
      Step state (.write process slot)
        { state with
          links := Function.update state.links (outbound process slot)
            { state.links (outbound process slot) with
              stash, wire := (state.links (outbound process slot)).wire ++ bytes } }
  | retain {state process slot} :
      (state.links (outbound process slot)).stash = [] →
      Step state (.retain process slot)
        { state with
          links := Function.update state.links (outbound process slot)
            { state.links (outbound process slot) with
              sources := (state.links (outbound process slot)).sources.filter fun source =>
                !state.is_complete slot source } }
  | shutdown {state process slot} :
      (state.links (outbound process slot)).sources = [] →
      (state.links (outbound process slot)).closed = false →
      Step state (.shutdown process slot)
        { state with
          links := Function.update state.links (outbound process slot)
            { state.links (outbound process slot) with
              wire := (state.links (outbound process slot)).wire ++ codec.encode final_header
              closed := true } }
  | read {state process slot bytes link'} :
      (state.links (inbound process slot)).active = true →
      0 < bytes → bytes ≤ (state.links (inbound process slot)).wire.length →
      (state.links (inbound process slot)).recv codec (cluster.worker_offset process)
        cluster.threads bytes = some link' →
      Step state (.read process slot bytes)
        { state with links := Function.update state.links (inbound process slot) link' }
  | hand_over {state process slot index merges} :
      index < cluster.threads →
      Step state (.hand_over process slot index)
        { state with
          links := Function.update state.links (inbound process slot)
            ((state.links (inbound process slot)).hand_over merges index) }
  | drain_recv {state index slot vec queue} :
      MergeQueue.drain_into
        ((state.links (inbound (cluster.process index) slot)).targets
          (index - cluster.worker_offset (cluster.process index)))
        (state.workers index).staged = (vec, queue) →
      Step state (.drain_recv index slot)
        { state with
          links := Function.update state.links (inbound (cluster.process index) slot)
            { state.links (inbound (cluster.process index) slot) with
              targets := Function.update
                (state.links (inbound (cluster.process index) slot)).targets
                (index - cluster.worker_offset (cluster.process index)) queue }
          workers := Function.update state.workers index
            { state.workers index with staged := vec } }
  | receive {state index fuel allocator'} :
      (state.workers index).receive codec fuel = some allocator' →
      Step state (.receive index)
        { state with workers := Function.update state.workers index allocator' }
  | pull {state index channel payload allocator'} :
      (state.workers index).pull channel = some (payload, allocator') →
      Step state (.pull index channel payload)
        { state with workers := Function.update state.workers index allocator' }
  | drop_puller {state index channel allocator'} :
      (state.workers index).drop_puller channel = some allocator' →
      Step state (.drop_puller index channel)
        { state with workers := Function.update state.workers index allocator' }

/-- Steps from the start. -/
abbrev RunsTo (labels : List Label) (state : Transport) : Prop :=
  Library.Run (Step codec cluster) (start cluster) labels state

end Transport

/-! ### What was pushed and pulled -/

/-- The messages pushed by each worker on each channel to each target, and those pulled. -/
structure History where
  pushed : ℕ × UInt64 × ℕ → List (List UInt8)
  pulled : ℕ × UInt64 → List (List UInt8)

namespace History

/-- Adds what a step pushes or pulls. -/
def record (history : History) : Transport.Label → History
  | .push worker channel target payload =>
    { history with
      pushed := Function.update history.pushed (worker, channel, target)
        (history.pushed (worker, channel, target) ++ [payload]) }
  | .pull worker channel payload =>
    { history with
      pulled := Function.update history.pulled (worker, channel)
        (history.pulled (worker, channel) ++ [payload]) }
  | _ => history

/-- What the steps of a run have pushed and pulled. -/
def of (labels : List Transport.Label) : History :=
  labels.foldl record { pushed := fun _ => [], pulled := fun _ => [] }

theorem of_snoc (labels : List Transport.Label) (label : Transport.Label) :
    of (labels ++ [label]) = (of labels).record label := List.foldl_append

end History

end Timely.Network
