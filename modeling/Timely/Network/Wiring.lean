/-
  Timely/Network/Wiring.lean
  ==========================
  **Who delivers to whom** (`allocator/zero_copy/allocator.rs`, `initialize.rs` and
  the heads of the loops in `tcp.rs`).

  A process has a send loop and a receive loop for each other process, in the order
  of the processes, and its workers exchange queues with them.  The pushers of a
  channel are those of the inner allocator for the workers of the own process, and
  for the others a header that names the worker, and the queue to its process.
-/
import Timely.Network.ProcessChannels
import Timely.Network.Transport

set_option linter.unusedSectionVars false

namespace Timely.Network

namespace Wiring

/-- Queues of bytes, by who has made them. -/
inductive Queue where
  /-- Made by a worker, to be filled by the receive loop in a position. -/
  | inbound (worker slot : ℕ)
  /-- Made by the send loop of a process to another one, for one of its threads. -/
  | outbound (process remote thread : ℕ)
  deriving DecidableEq

/-! ### Processes -/

structure TcpBuilder where
  inner : ProcessBuilder
  index : ℕ
  peers : ℕ
  futures : List ℕ
  promises : List ℕ

/-- Builders, and what the send loops and the receive loops get. -/
def new_vector (allocators : List ProcessBuilder) (my_process processes next : ℕ) :
    List TcpBuilder × List (List ℕ) × List (List ℕ) :=
  let threads := allocators.length
  let (network_promises, worker_futures, next) := promise_futures (processes - 1) threads next
  let (worker_promises, network_futures, _) := promise_futures threads (processes - 1) next
  (((allocators.zip worker_promises).zip worker_futures).mapIdx
    fun index ((inner, promises), futures) =>
      { inner, index := my_process * threads + index, peers := threads * processes, promises,
        futures }, network_promises, network_futures)

/-- The part of a worker's allocator that routes messages. -/
structure TcpWorker where
  inner : Process
  index : ℕ
  peers : ℕ
  /-- To each other process. -/
  sends : List Queue
  /-- From each other process. -/
  recvs : List Queue

/-- The queues that a worker makes, and sends over its promises. -/
def TcpBuilder.queues (builder : TcpBuilder) : List (ℕ × Queue) :=
  fulfil builder.promises fun slot => Queue.inbound builder.index slot

/-- Builds the allocator, with what it receives. -/
def TcpBuilder.build (builder : TcpBuilder) (buzzers : List (ℕ × ℕ)) (sent : List (ℕ × Queue)) :
    Option TcpWorker := do
  let sends ← receive_all sent builder.futures
  let inner ← builder.inner.build buzzers
  return ⟨inner, builder.index, builder.peers, sends, builder.queues.map Prod.snd⟩

/-- The threads for the stream to another process: the ends for the send loop and the receive
    loop, which are handed out in the order of the sockets. -/
structure Loops where
  remote : ℕ
  sources : List ℕ
  targets : List ℕ

/-- The sockets to the other processes, in order, with the ends for their loops. -/
def initialize_networking (my_index processes : ℕ) (promises futures : List (List ℕ)) : List Loops :=
  (((List.range processes).filter (· ≠ my_index)).zip (promises.zip futures)).map
    fun (remote, sources, targets) => ⟨remote, sources, targets⟩

/-- The queues that a send loop makes, and sends to its sources. -/
def Loops.queues (my_index : ℕ) (loops : Loops) : List (ℕ × Queue) :=
  fulfil loops.sources fun thread => Queue.outbound my_index loops.remote thread

/-- A process that runs: its workers, and the queues of its loops by the other process. -/
structure Site where
  workers : List TcpWorker
  send_loops : List (ℕ × List Queue)
  recv_loops : List (ℕ × List Queue)

/-- The parts of a process that are made before its threads start. -/
def parts (threads processes my_index : ℕ) : List TcpBuilder × List Loops :=
  let (allocators, next) := ProcessBuilder.new_vector threads 0
  let (builders, promises, futures) := new_vector allocators my_index processes next
  (builders, initialize_networking my_index processes promises futures)

/-- The threads of a process start, and exchange their buzzers and queues. -/
def start (threads processes my_index : ℕ) (buzzers : List (ℕ × ℕ)) (inbound outbound : List (ℕ × Queue)) :
    Option Site := do
  let (builders, loops) := parts threads processes my_index
  let workers ← builders.mapM fun builder => builder.build buzzers outbound
  let recv_loops ← loops.mapM fun loop =>
    (receive_all inbound loop.targets).map fun targets => (loop.remote, targets)
  let send_loops := loops.map fun loop => (loop.remote, (loop.queues my_index).map Prod.snd)
  return ⟨workers, send_loops, recv_loops⟩

/-! ### Channels -/

inductive TcpPusher where
  | inner (pusher : CountPusher)
  | bytes (header : MessageHeader) (queue : Queue)

/-- A puller of an inner one, and of the worker's queue for a channel. -/
structure TcpPuller where
  inner : CountPuller
  receiver : UInt64

namespace TcpWorker

variable (worker : TcpWorker) (identifier : UInt64)

/-- One turn of the loop that makes the pushers. -/
def push_for (state : List CountPusher × List TcpPusher) (target_index : ℕ) :
    Option (List CountPusher × List TcpPusher) :=
  let inner_peers := worker.inner.peers
  let process_id := target_index / inner_peers
  if process_id = worker.index / inner_peers then
    match state.1 with
    | [] => none
    | pusher :: inner_sends => some (inner_sends, state.2 ++ [.inner pusher])
  else
    let header : MessageHeader :=
      { channel := identifier, source := UInt64.ofNat worker.index
        target := UInt64.ofNat target_index, length := 0, seqno := 0 }
    (worker.sends[Cluster.slot (worker.index / inner_peers) process_id]?).map fun queue =>
      (state.1, state.2 ++ [.bytes header queue])

/-- Allocates a channel; identifiers are allocated in order. -/
def allocate (bound : Option UInt64) (shared : Shared) :
    Option ((List TcpPusher × TcpPuller) × Option UInt64 × Shared) :=
  if bound.all (· < identifier) then do
    let ((inner_sends, inner_recv), shared) ← worker.inner.allocate shared identifier
    let (_, pushes) ← (List.range worker.peers).foldlM (worker.push_for identifier) (inner_sends, [])
    return ((pushes, ⟨inner_recv, identifier⟩), some identifier, shared)
  else none

end TcpWorker

/-- What the processes share among their workers, the largest identifiers, and the ends that were
    returned. -/
structure ClusterState where
  shared : ℕ → Shared
  bounds : ℕ → Option UInt64
  taken : ℕ × UInt64 → Option (List TcpPusher × TcpPuller)

/-- A worker of a cluster allocates a channel. -/
def call (cluster : Cluster) (sites : ℕ → Site) (state : ClusterState) (call : ℕ × UInt64) :
    Option ClusterState := do
  let process := cluster.process call.1
  let worker ← (sites process).workers[call.1 - cluster.worker_offset process]?
  let (ends, bound, shared) ← worker.allocate call.2 (state.bounds call.1) (state.shared process)
  return ⟨Function.update state.shared process shared, Function.update state.bounds call.1 bound,
    Function.update state.taken call (some ends)⟩

/-! ### The way of a message -/

/-- What is pushed by a worker of a process comes to the puller of a worker: over the same
    channel in the same process; or over the send loop that has the queue, the stream to its
    process, the receive loop there, and the queue that this loop has for the target. -/
inductive DeliversTo (cluster : Cluster) (sites : ℕ → Site) (process : ℕ) (target : ℕ)
    (puller : TcpPuller) : TcpPusher → Prop
  | inner {pusher : CountPusher} : cluster.process target = process →
      pusher.pusher = puller.inner.puller → DeliversTo cluster sites process target puller (.inner pusher)
  | bytes {header : MessageHeader} {queue arrival : Queue} {remote : ℕ} {sources targets : List Queue}
      {worker : TcpWorker} :
      (remote, sources) ∈ (sites process).send_loops → queue ∈ sources →
      (process, targets) ∈ (sites remote).recv_loops →
      cluster.worker_offset remote ≤ header.target.toNat →
      targets[header.target.toNat - cluster.worker_offset remote]? = some arrival →
      (sites (cluster.process target)).workers[target
        - cluster.worker_offset (cluster.process target)]? = some worker →
      arrival ∈ worker.recvs → header.channel = puller.receiver →
      DeliversTo cluster sites process target puller (.bytes header queue)

/-! ### The processes are wired -/

/-- The other processes in order. -/
theorem filter_range_eq {my_index processes : ℕ} (h : my_index < processes) :
    (List.range processes).filter (· ≠ my_index)
      = (List.range (processes - 1)).map (Cluster.socket my_index) := by
  obtain ⟨more, rfl⟩ : ∃ more, processes = my_index + 1 + more := ⟨processes - my_index - 1, by omega⟩
  have hbefore : (List.range my_index).filter (· ≠ my_index)
      = (List.range my_index).map (Cluster.socket my_index) := by
    rw [List.filter_eq_self.mpr fun i hi => decide_eq_true (Nat.ne_of_lt (List.mem_range.mp hi))]
    refine (List.map_id _).symm.trans (List.map_congr_left fun i hi => ?_)
    exact (if_pos (List.mem_range.mp hi)).symm
  have hafter : ((List.range more).map (my_index + 1 + ·)).filter (· ≠ my_index)
      = ((List.range more).map (my_index + ·)).map (Cluster.socket my_index) := by
    rw [List.filter_eq_self.mpr fun i hi => ?_, List.map_map]
    · refine List.map_congr_left fun i _ => ?_
      rw [Function.comp_apply, Cluster.socket, if_neg (by omega)]
      omega
    · obtain ⟨j, -, rfl⟩ := List.mem_map.mp hi
      exact decide_eq_true (by omega)
  have hfew : my_index + 1 + more - 1 = my_index + more := by omega
  have hself : [my_index].filter (· ≠ my_index) = [] := by simp
  rw [hfew, List.range_add, List.range_succ, List.filter_append, List.filter_append, hbefore, hself,
    hafter, List.append_nil, List.range_add, List.map_append]

variable {threads processes my_index : ℕ}

/-- The worker of a process with a number there. -/
def tcp_worker (threads processes my_index thread : ℕ) : TcpWorker where
  inner := worker threads 0 thread
  index := my_index * threads + thread
  peers := threads * processes
  sends := (List.range (processes - 1)).map fun slot =>
    .outbound my_index (Cluster.socket my_index slot) thread
  recvs := (List.range (processes - 1)).map fun slot => .inbound (my_index * threads + thread) slot

@[simp] theorem tcp_worker_inner (threads processes my_index thread : ℕ) :
    (tcp_worker threads processes my_index thread).inner = worker threads 0 thread := rfl

@[simp] theorem tcp_worker_peers (threads processes my_index thread : ℕ) :
    (tcp_worker threads processes my_index thread).peers = threads * processes := rfl

/-- A process whose queues are where they belong. -/
def site (threads processes my_index : ℕ) : Site where
  workers := (List.range threads).map (tcp_worker threads processes my_index)
  send_loops := (List.range (processes - 1)).map fun slot => (Cluster.socket my_index slot,
    (List.range threads).map (Queue.outbound my_index (Cluster.socket my_index slot)))
  recv_loops := (List.range (processes - 1)).map fun slot => (Cluster.socket my_index slot,
    (List.range threads).map fun thread => .inbound (my_index * threads + thread) slot)

/-- The builder of a worker, when the numbers of its channels begin with `next`. -/
def builder (threads processes my_index next thread : ℕ) : TcpBuilder where
  inner := ProcessBuilder.builder threads 0 thread
  index := my_index * threads + thread
  peers := threads * processes
  futures := (List.range (processes - 1)).map fun slot => promise threads next slot thread
  promises := (List.range (processes - 1)).map
    (promise (processes - 1) (next + (processes - 1) * threads) thread)

/-- The ends for the loops to another process. -/
def loops (threads processes my_index next slot : ℕ) : Loops where
  remote := Cluster.socket my_index slot
  sources := (List.range threads).map (promise threads next slot)
  targets := (List.range threads).map fun thread =>
    promise (processes - 1) (next + (processes - 1) * threads) thread slot

theorem initialize_networking_eq (h : my_index < processes) (source target : ℕ → List ℕ) :
    initialize_networking my_index processes ((List.range (processes - 1)).map source)
        ((List.range (processes - 1)).map target)
      = (List.range (processes - 1)).map fun slot =>
        ⟨Cluster.socket my_index slot, source slot, target slot⟩ := by
  simp only [initialize_networking, filter_range_eq h, List.zip_map', List.map_map]
  rfl

theorem parts_eq (h : my_index < processes) : ∃ next, parts threads processes my_index
    = ((List.range threads).map (builder threads processes my_index next),
      (List.range (processes - 1)).map (loops threads processes my_index next)) := by
  refine ⟨(ProcessBuilder.new_vector threads 0).2, ?_⟩
  have hinner := ProcessBuilder.new_vector_eq threads 0
  rw [parts]
  generalize ProcessBuilder.new_vector threads 0 = allocators at hinner ⊢
  obtain ⟨allocators, next⟩ := allocators
  subst hinner
  simp only [new_vector, promise_futures_eq, List.length_map, List.length_range, List.zip_map',
    mapIdx_map_range, initialize_networking_eq h]
  rfl

/-- What the threads of a process send each other, in any orders. -/
structure Exchanged (threads processes my_index : ℕ) (buzzers : List (ℕ × ℕ))
    (inbound outbound : List (ℕ × Queue)) : Prop where
  buzzers : buzzers.Perm
    (ProcessBuilder.buzz ((parts threads processes my_index).1.map TcpBuilder.inner))
  inbound : inbound.Perm ((parts threads processes my_index).1.flatMap TcpBuilder.queues)
  outbound : outbound.Perm
    ((parts threads processes my_index).2.flatMap (Loops.queues my_index))

/-- In whatever order threads exchange their queues, these are where they belong. -/
theorem start_eq {buzzers : List (ℕ × ℕ)} {inbound outbound : List (ℕ × Queue)}
    (hmy : my_index < processes)
    (h : Exchanged threads processes my_index buzzers inbound outbound) :
    start threads processes my_index buzzers inbound outbound
      = some (site threads processes my_index) := by
  obtain ⟨next, hparts⟩ := @parts_eq threads processes my_index hmy
  obtain ⟨hbuzzers, hinbound, houtbound⟩ := h
  rw [hparts] at hbuzzers hinbound houtbound
  have hinner : ((List.range threads).map (builder threads processes my_index next)).map
      TcpBuilder.inner = (ProcessBuilder.new_vector threads 0).1 := by
    rw [ProcessBuilder.new_vector_eq, List.map_map]
    rfl
  -- what the workers send, and what the send loops send
  have hworkers : ((List.range threads).map (builder threads processes my_index next)).flatMap
      TcpBuilder.queues = fulfil_all
        (promise_futures threads (processes - 1) (next + (processes - 1) * threads)).1
        fun thread slot => Queue.inbound (my_index * threads + thread) slot := by
    simp only [fulfil_all, promise_futures_eq, mapIdx_map_range, List.flatMap_def, List.map_map]
    rfl
  have hloops : ((List.range (processes - 1)).map (loops threads processes my_index next)).flatMap
      (Loops.queues my_index) = fulfil_all (promise_futures (processes - 1) threads next).1
        fun slot thread => Queue.outbound my_index (Cluster.socket my_index slot) thread := by
    simp only [fulfil_all, promise_futures_eq, mapIdx_map_range, List.flatMap_def, List.map_map]
    rfl
  rw [hinner] at hbuzzers
  rw [hworkers] at hinbound
  rw [hloops] at houtbound
  have hbuild : ((List.range threads).map (builder threads processes my_index next)).mapM
      (fun builder => builder.build buzzers outbound)
        = some ((List.range threads).map (tcp_worker threads processes my_index)) := by
    refine mapM_map_some fun thread hthread => ?_
    have hthread := List.mem_range.mp hthread
    have hsends := receive_all_promises houtbound hthread
    have hprocess := ProcessBuilder.build_builder hbuzzers hthread
    rw [TcpBuilder.build, TcpBuilder.queues]
    simp only [builder, hsends, hprocess, fulfil, mapIdx_map_range, List.map_map]
    rfl
  have hrecv : ((List.range (processes - 1)).map (loops threads processes my_index next)).mapM
      (fun loop => (receive_all inbound loop.targets).map fun targets => (loop.remote, targets))
        = some (site threads processes my_index).recv_loops := by
    refine mapM_map_some fun slot hslot => ?_
    rw [loops, receive_all_promises hinbound (List.mem_range.mp hslot)]
    rfl
  have hsend : ((List.range (processes - 1)).map (loops threads processes my_index next)).map
      (fun loop => (loop.remote, (loop.queues my_index).map Prod.snd))
        = (site threads processes my_index).send_loops := by
    rw [List.map_map]
    refine List.map_congr_left fun slot _ => ?_
    simp only [Function.comp_apply, Loops.queues, loops, fulfil, mapIdx_map_range, List.map_map]
    rfl
  rw [start, hparts]
  simp only [hbuild, hrecv, hsend, Option.bind_eq_bind, Option.bind_some]
  rfl

end Wiring

end Timely.Network
