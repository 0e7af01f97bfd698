/-
  Timely/Network/Delivery.lean
  ============================
  **The transport delivers what was pushed.**

  Every run of the transport has a picture of the messages on their way.  Read off
  from it: what the live pullers of a worker have been given, of each source, is
  the beginning of what that source has pushed, and all of it where nothing is on
  its way.  No loop panics, and none that splits bytes goes on for ever.
-/
import Timely.Network.MailArrivals

set_option linter.unusedSectionVars false

namespace Timely.Network

open Library Transport

variable {codec : Codec} {cluster : Cluster}

/-- Nothing is on its way from a source to a target: the stream was read to its end, or
    there is nothing to be written, and what was read has been received. -/
structure Drained (cluster : Cluster) (state : Transport) (source target : ℕ) : Prop where
  written : (state.links (cluster.process source, cluster.process target)).closed = true ∨
    (state.endpoints (source, Cluster.slot (cluster.process source) (cluster.process target))).send
        = []
      ∧ (state.links (cluster.process source, cluster.process target)).stash = []
  wire : (state.links (cluster.process source, cluster.process target)).wire = []
  handed : (state.links (cluster.process source, cluster.process target)).stageds
    (target - cluster.worker_offset (cluster.process target)) = []
  arrived : (state.links (cluster.process source, cluster.process target)).targets
    (target - cluster.worker_offset (cluster.process target)) = []
  staged : (state.workers target).staged = []

/-! ### Every run is represented -/

theorem represents_start (hlawful : codec.Lawful) :
    Represents codec cluster (start cluster) (fun _ => []) (History.of []) := by
  refine ⟨fun hmem => absurd hmem List.not_mem_nil, fun source channel target => ?_,
    fun place => ?_, fun _ => rfl, fun hpusher => ?_, fun _ hclosed => ?_, fun _ _ => rfl,
    fun index slot hout => ?_⟩
  · rw [Routing.all, Routing.along_eq_nil fun _ _ => rfl]
    rfl
  · cases place with
    | queued worker process => exact fun _ _ => Carries.nil
    | flowing process remote =>
      refine ⟨fun _ => rfl, RecvLoop.try_read_nil hlawful, fun hdone => ?_⟩
      exact absurd hdone.symm Bool.false_ne_true
    | received worker => exact TcpAllocator.keeps_new
    | _ => exact Carries.nil
  · cases hpusher
  · exact absurd hclosed Bool.false_ne_true
  · -- all workers of a process are sources at first
    obtain ⟨hoffset, hthreads⟩ := Cluster.process_eq_iff.mp (rfl : cluster.process index = _)
    refine absurd ?_ hout
    refine List.mem_map.mpr ⟨index - cluster.worker_offset (cluster.process index), ?_, ?_⟩
    · rw [List.mem_range]
      omega
    · omega

theorem Represents.step {state state' : Transport} {mail : Mail} {history : History}
    {label : Label} (hlawful : codec.Lawful) (h : Represents codec cluster state mail history)
    (hstep : Step codec cluster state label state') :
    ∃ mail', Represents codec cluster state' mail' (history.record label) := by
  cases hstep with
  | allocate hindex hdropped hallocate => exact ⟨mail, h.allocate hindex hdropped hallocate⟩
  | push hpusher hpush => exact h.push hlawful hpusher hpush
  | release merges => exact ⟨mail, h.release merges⟩
  | drop_endpoints merges => exact ⟨mail, h.drop_endpoints merges⟩
  | drain hsource hdrain => exact h.drain hsource hdrain
  | write hstash => exact h.write hstash
  | retain hstash => exact ⟨mail, h.retain hstash⟩
  | shutdown hsources hopen => exact ⟨mail, h.shutdown hsources hopen⟩
  | read hactive _ _ hrecv => exact h.read hlawful hactive hrecv
  | hand_over hindex => exact h.hand_over hindex
  | drain_recv hdrain => exact h.drain_recv hdrain
  | receive hreceive => exact h.receive hlawful hreceive
  | pull hpull => exact ⟨mail, h.pull hpull⟩
  | drop_puller hdrop => exact ⟨mail, h.drop_puller hdrop⟩

theorem exists_represents (hlawful : codec.Lawful) {labels : List Label} {state : Transport}
    (h : RunsTo codec cluster labels state) :
    ∃ mail, Represents codec cluster state mail (History.of labels) := by
  refine Run.invariant (P := fun labels state =>
    ∃ mail, Represents codec cluster state mail (History.of labels)) h
    ⟨fun _ => [], represents_start hlawful⟩ ?_
  rintro labels before label after ⟨mail, hmail⟩ hstep
  rw [History.of_snoc]
  exact hmail.step hlawful hstep

/-! ### What is received, and what is on its way -/

section Reading

variable {state : Transport} {mail : Mail} {history : History}
  (h : Represents codec cluster state mail history)
include h

/-- What a source has pushed is what was received from it, and what is on its way. -/
theorem Represents.pushed_eq (source : ℕ) (channel : UInt64) (target : ℕ) :
    history.pushed (source, channel, target)
      = (((mail (.received target)).filter (·.header.channel = channel)).filter
          (·.source = source)).map Frame.payload
        ++ ((cluster.routing.along (cluster.way source target) mail (source, target)).filter
          (·.header.channel = channel)).map Frame.payload := by
  have hreceived : (mail (.received target)).filter
      (cluster.routing.flow · = (source, target))
      = (mail (.received target)).filter (·.source = source) := by
    refine List.filter_congr fun frame hframe => ?_
    have htarget : frame.target = target := by
      have hroute := h.on_route hframe
      simp only [Cluster.routing, Cluster.way, List.mem_cons, List.not_mem_nil, reduceCtorEq,
        or_false, Place.received.injEq] at hroute
      exact hroute.symm
    simp [Cluster.routing, htarget]
  have hall : cluster.routing.all mail (source, target)
      = (mail (.received target)).filter (cluster.routing.flow · = (source, target))
        ++ cluster.routing.along (cluster.way source target) mail (source, target) :=
    Routing.all_eq_append rfl
  rw [← h.flows source channel target, hall, hreceived, List.filter_append, List.map_append,
    List.filter_filter, List.filter_filter]
  simp only [Bool.and_comm]

/-- When nothing is on its way, the places on the way are empty. -/
theorem Represents.along_way_eq_nil (hlawful : codec.Lawful) {source target : ℕ}
    (hremote : cluster.process target ≠ cluster.process source)
    (hdrained : Drained cluster state source target) :
    cluster.routing.along (cluster.way source target) mail (source, target) = [] := by
  have hsocket := Cluster.socket_slot hremote
  -- a closed stream has no sources left, whose queues are empty
  have hwritten : (state.endpoints
        (source, Cluster.slot (cluster.process source) (cluster.process target))).send = []
      ∧ (state.links (cluster.process source, cluster.process target)).stash = [] := by
    rcases hdrained.written with hclosed | hwritten
    · have hsources := h.closed _ hclosed
      refine ⟨(h.complete source _ ?_).2, h.stash _ hsources⟩
      rw [outbound, hsocket, hsources]
      exact List.not_mem_nil
    · exact hwritten
  have hincoming : ∃ slot, Cluster.socket (cluster.process target) slot = cluster.process source :=
    ⟨_, Cluster.socket_slot hremote.symm⟩
  obtain ⟨slot, hslot⟩ := hincoming
  refine Routing.along_eq_nil fun place hplace => ?_
  simp only [Cluster.way, List.mem_cons, List.not_mem_nil, or_false] at hplace
  rcases hplace with rfl | rfl | rfl | rfl | rfl | rfl
  · have hcarries : Carries codec (state.workers target).staged (mail (.staged target)) :=
      h.holds (.staged target)
    rw [hdrained.staged] at hcarries
    exact hcarries.eq_nil
  · have hcarries := h.holds (.arrived (cluster.process source) target)
    rw [Holds, hdrained.arrived] at hcarries
    exact hcarries.eq_nil
  · have hcarries := h.holds (.carved (cluster.process source) target)
    rw [Holds, hdrained.handed] at hcarries
    exact hcarries.eq_nil
  · rw [← hslot]
    refine h.flowing_eq_nil hlawful ?_
    rw [inbound, hslot]
    exact hdrained.wire
  · have hcarries := h.holds (.stashed (cluster.process source) (cluster.process target))
    rw [Holds, hwritten.2] at hcarries
    exact hcarries.eq_nil
  · have hcarries := h.holds (.queued source (cluster.process target)) _ hsocket
    rw [hwritten.1] at hcarries
    exact hcarries.eq_nil

end Reading

/-! ### The result -/

/-- What the puller of a worker's channel was given, with the sources: what was pulled, and
    what waits in its queue.  Each source's part is the beginning of what it has pushed, and
    the whole when nothing is on its way. -/
def Delivers (cluster : Cluster) (state : Transport) (history : History) (target : ℕ)
    (channel : UInt64) (delivered : List (ℕ × List UInt8)) : Prop :=
  delivered.map Prod.snd
      = history.pulled (target, channel) ++ ((state.workers target).to_local channel).getD []
    ∧ ∀ source, ∃ transit,
        history.pushed (source, channel, target)
            = (delivered.filter (·.1 = source)).map Prod.snd ++ transit
          ∧ (cluster.process target ≠ cluster.process source →
              Drained cluster state source target → transit = [])

/-- In every run, live pullers are given the messages pushed, those of each source in their
    order, none lost, duplicated, merged or split.  Whatever a receive loop reads it makes
    something of, and it does not read at the end of its stream; and the loop of a worker
    that splits bytes into messages ends. -/
theorem transport_delivers (hlawful : codec.Lawful) {labels : List Label} {state : Transport}
    (h : RunsTo codec cluster labels state) :
    (∀ target channel, (state.workers target).pullers channel = true →
      ∃ delivered, Delivers cluster state (History.of labels) target channel delivered)
    ∧ (∀ process slot bytes, (state.links (inbound process slot)).active = true →
      ((state.links (inbound process slot)).recv codec (cluster.worker_offset process)
        cluster.threads bytes).isSome)
    ∧ (∀ process slot, (state.links (inbound process slot)).closed = true →
      (state.links (inbound process slot)).wire = [] →
      (state.links (inbound process slot)).active = false)
    ∧ ∀ worker, ∃ fuel, ((state.workers worker).receive codec fuel).isSome := by
  obtain ⟨mail, hmail⟩ := exists_represents hlawful h
  refine ⟨fun target channel hlive => ?_, fun process slot bytes hactive => ?_,
    fun process slot hclosed hwire => ?_, fun worker => ?_⟩
  · have hkeeps : (state.workers target).Keeps (mail (.received target)) fun channel =>
        (History.of labels).pulled (target, channel) := hmail.holds (.received target)
    refine ⟨((mail (.received target)).filter (·.header.channel = channel)).map fun frame =>
      (frame.source, frame.payload), ?_, fun source =>
        ⟨((cluster.routing.along (cluster.way source target) mail (source, target)).filter
          (·.header.channel = channel)).map Frame.payload, ?_, fun hremote hdrained => ?_⟩⟩
    · rw [hkeeps.queue channel (Or.inl hlive), List.map_map]
      rfl
    · rw [hmail.pushed_eq source channel target, List.filter_map, List.map_map]
      rfl
    · rw [hmail.along_way_eq_nil hlawful hremote hdrained]
      rfl
  · exact hmail.recv_isSome hlawful hactive bytes
  · exact hmail.active_eq_false hlawful hclosed hwire
  · exact hmail.receive_isSome hlawful

/-! ### A message in two reads -/

/-- Two processes of one worker each. -/
def two_processes : Cluster where
  processes := 2
  threads := 1
  threads_pos := Nat.one_pos
  peers_le := by decide

/-- A message of one byte on the first channel, from the first worker to the second. -/
def one_byte : Frame where
  header := { channel := 0, source := 0, target := 1, length := 1, seqno := 0 }
  payload := [7]
  length_eq := rfl
  nonempty := by decide

/-- The stream that it is in, when `read` bytes of it were read. -/
def one_byte_link (read : ℕ) : Link where
  sources := [0]
  stash := []
  wire := (one_byte.bytes Codec.memory).drop read
  closed := false
  valid := (one_byte.bytes Codec.memory).take read
  active := true
  stageds := fun _ => []
  targets := fun _ => []

/-- The header is not whole after a first read, and the message is after a second one. -/
theorem one_byte_reads :
    (one_byte_link 0).recv Codec.memory 1 1 15 = some (one_byte_link 15)
    ∧ (one_byte_link 15).recv Codec.memory 1 1 26 = some { one_byte_link 41 with
        valid := []
        stageds := RecvLoop.stage (fun _ => []) 0 (one_byte.bytes Codec.memory) } := by
  constructor
  · refine Option.map_eq_some_iff.mpr
      ⟨((one_byte.bytes Codec.memory).take 15, fun _ => [], true), ?_, rfl⟩
    exact RecvLoop.carve_of_none rfl
  · refine Option.map_eq_some_iff.mpr
      ⟨([], RecvLoop.stage (fun _ => []) 0 (one_byte.bytes Codec.memory), true), ?_, rfl⟩
    have hrange : RecvLoop.InRange 1 1 one_byte := ⟨by decide, by decide⟩
    refine (RecvLoop.carve_bytes Codec.memory_lawful hrange []).trans ?_
    exact RecvLoop.carve_of_none rfl

set_option maxRecDepth 4000 in
theorem one_byte_run : ∃ state, RunsTo Codec.memory two_processes
    [.allocate 0 0, .allocate 1 0, .push 0 0 1 [7], .drain 0 0, .write 0 0, .read 1 0 15,
      .read 1 0 26, .hand_over 1 0 0, .drain_recv 1 0, .receive 1] state
    ∧ (state.workers 1).pullers 0 = true ∧ Drained two_processes state 0 1 := by
  have hpushed : Pusher.push Codec.memory { header := { one_byte.header with length := 0 } }
      SendEndpoint.new [7] true [] [] []
      = some ({ header := { one_byte.header with length := 0, seqno := 1 } },
        { send := [one_byte.bytes Codec.memory], valid := [] }) := rfl
  have hstart : RunsTo Codec.memory two_processes [] (start two_processes) := Run.nil
  have hallocate : RunsTo _ _ [.allocate 0 0] _ :=
    hstart.snoc (Step.allocate (by decide) rfl rfl)
  have hallocate' : RunsTo _ _ [.allocate 0 0, .allocate 1 0] _ :=
    hallocate.snoc (Step.allocate (by decide) rfl rfl)
  have hpush : RunsTo _ _ [.allocate 0 0, .allocate 1 0, .push 0 0 1 [7]] _ :=
    hallocate'.snoc (Step.push rfl hpushed)
  have hdrain : RunsTo _ _ [.allocate 0 0, .allocate 1 0, .push 0 0 1 [7], .drain 0 0] _ :=
    hpush.snoc (Step.drain (by decide) rfl)
  have hwrite := hdrain.snoc (@Step.write _ _ _ 0 0 _ _ rfl)
  have hread := hwrite.snoc
    (@Step.read _ _ _ 1 0 15 _ rfl (by decide) (by decide) one_byte_reads.1)
  have hread' := hread.snoc
    (@Step.read _ _ _ 1 0 26 _ rfl (by decide) (by decide) one_byte_reads.2)
  have hhand := hread'.snoc (@Step.hand_over _ _ _ 1 0 0 [] (by decide))
  have hdrain' := hhand.snoc (@Step.drain_recv _ _ _ 1 0 _ _ rfl)
  have hreceive := hdrain'.snoc (@Step.receive _ _ _ 1 1 _ rfl)
  exact ⟨_, hreceive, rfl, Or.inr ⟨rfl, rfl⟩, rfl, rfl, rfl, rfl⟩

/-- The message is in the queue of its channel. -/
theorem transport_delivers_example : ∃ labels state delivered,
    RunsTo Codec.memory two_processes labels state
    ∧ (History.of labels).pushed (0, 0, 1) = [[7]]
    ∧ Drained two_processes state 0 1
    ∧ Delivers two_processes state (History.of labels) 1 0 delivered := by
  obtain ⟨state, hrun, hlive, hdrained⟩ := one_byte_run
  obtain ⟨delivered, hdelivers⟩ := (transport_delivers Codec.memory_lawful hrun).1 1 0 hlive
  exact ⟨_, state, delivered, hrun, rfl, hdrained, hdelivers⟩

end Timely.Network
