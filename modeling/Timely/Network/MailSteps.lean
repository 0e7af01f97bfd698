/-
  Timely/Network/MailSteps.lean
  =============================
  **Each step of the transport moves messages, or none.**

  One lemma for each kind of step.  The steps that move bytes from one place to
  the next move the messages these bytes are; the others do not concern the mail.
-/
import Timely.Network.Mail

set_option linter.unusedSectionVars false

namespace Timely.Network

open Library Transport

variable {codec : Codec} {cluster : Cluster} {state : Transport} {mail : Mail} {history : History}

/-! ### Moving messages on -/

section Moves

variable {src place : Place} {items rest : List Frame}

theorem Cluster.move_other (hne : place ≠ src) (hnext : ∀ target, cluster.next target src ≠ place) :
    cluster.routing.move src items rest mail place = mail place :=
  cluster.routing.move_other hne fun item _ => hnext item.target

theorem Cluster.move_next (hne : place ≠ src) (hnext : ∀ target, cluster.next target src = place) :
    cluster.routing.move src items rest mail place = mail place ++ items :=
  cluster.routing.move_next hne fun item _ => hnext item.target

variable {state' : Transport} (h : Represents codec cluster state mail history)
include h

variable (src) in
/-- Messages that are not at their end yet may be moved, if bytes are. -/
theorem Represents.move (hsrc : mail src = items ++ rest) (hlast : ∀ worker, src ≠ .received worker)
    (holds : ∀ place, Holds codec cluster state' history place
      (cluster.routing.move src items rest mail place))
    (sent : ∀ key, (state'.endpoints key).valid = [])
    (pushers : ∀ {index channel target pusher},
      state'.pushers (index, channel, target) = some pusher →
        Made cluster state'.dropped index channel target pusher)
    (closed : ∀ key, (state'.links key).closed = true → (state'.links key).sources = [])
    (stash : ∀ key, (state'.links key).sources = [] → (state'.links key).stash = [])
    (complete : ∀ index slot,
      index ∉ (state'.links (outbound (cluster.process index) slot)).sources →
        state'.dropped index = true ∧ (state'.endpoints (index, slot)).send = []) :
    Represents codec cluster state' (cluster.routing.move src items rest mail) history := by
  have hend : ∀ item ∈ items,
      (cluster.routing.route (cluster.routing.flow item)).head? ≠ some src := by
    intro item _ heq
    exact hlast item.target (Option.some.inj heq).symm
  constructor
  · exact Routing.OnRoute.move h.on_route hsrc hend
  · intro source channel target
    rw [Routing.all_move h.on_route hsrc hend]
    exact h.flows source channel target
  · exact holds
  · exact sent
  · exact pushers
  · exact closed
  · exact stash
  · exact complete

/-- The messages of a stream are for workers of the process at its end. -/
theorem Represents.process_target {process remote : ℕ} {frame : Frame}
    (hmem : frame ∈ mail (.flowing process remote)) : cluster.process frame.target = remote := by
  have hroute := h.on_route hmem
  simp only [Cluster.routing, Cluster.way, List.mem_cons, List.not_mem_nil, reduceCtorEq,
    false_or, or_false, Place.flowing.injEq] at hroute
  exact hroute.2.symm

end Moves

theorem Streams.update {links : ℕ × ℕ → Link} {key key' : ℕ × ℕ} {link : Link}
    {frames : List Frame} (h : Streams codec (links key') frames)
    (hvalid : link.valid = (links key).valid) (hwire : link.wire = (links key).wire)
    (hclosed : link.closed = (links key).closed) (hactive : link.active = (links key).active) :
    Streams codec (Function.update links key link key') frames := by
  by_cases hkey : key' = key
  · subst hkey
    rw [Function.update_self]
    constructor
    · rw [hvalid, hwire, hclosed, hactive]
      exact h.bytes
    · rw [hvalid]
      exact h.part
    · rw [hwire, hclosed, hactive]
      exact h.ended
  · rw [Function.update_of_ne hkey]
    exact h

/-! ### Channels -/

section Channels

variable {index : ℕ} {identifier channel : UInt64} {allocator' : TcpAllocator}

/-- Workers may do what keeps their queues, and leaves what they have staged. -/
theorem Represents.set_worker (h : Represents codec cluster state mail history)
    (hstaged : allocator'.staged = (state.workers index).staged)
    (hkeeps : allocator'.Keeps (mail (.received index)) fun channel =>
      history.pulled (index, channel)) (place : Place) :
    Holds codec cluster { state with workers := Function.update state.workers index allocator' }
      history place (mail place) := by
  have hplace := h.holds place
  cases place with
  | staged worker =>
    rw [Holds, apply_update TcpAllocator.staged]
    · exact hplace
    · exact hstaged
  | received worker =>
    rw [Holds] at hplace ⊢
    by_cases hworker : worker = index
    · subst hworker
      simpa only [Function.update_self] using hkeeps
    · simpa only [Function.update_of_ne hworker] using hplace
  | _ => exact hplace

theorem Represents.allocate (h : Represents codec cluster state mail history)
    (hindex : index < cluster.peers) (hdropped : state.dropped index = false)
    (hallocate : (state.workers index).allocate identifier = some allocator') :
    Represents codec cluster
      { state with
        pushers := fun (worker, channel, target) =>
          if worker = index ∧ channel = identifier then new_pusher cluster index identifier target
          else state.pushers (worker, channel, target)
        workers := Function.update state.workers index allocator' } mail history := by
  have hstaged : allocator'.staged = (state.workers index).staged := by
    obtain ⟨-, heq⟩ := Option.ite_none_right_eq_some.mp hallocate
    obtain rfl := Option.some.inj heq
    rfl
  have hkeeps := (h.holds (.received index)).allocate hallocate
  refine ⟨h.on_route, h.flows, fun place => ?_, h.sent, ?_, h.closed, h.stash, h.complete⟩
  · have hplace := h.set_worker hstaged hkeeps place
    cases place <;> exact hplace
  · intro worker channel target pusher hpusher
    by_cases hnew : worker = index ∧ channel = identifier
    · obtain ⟨rfl, rfl⟩ := hnew
      have hpusher : new_pusher cluster worker channel target = some pusher :=
        (if_pos ⟨rfl, rfl⟩).symm.trans hpusher
      obtain ⟨⟨htarget, hremote⟩, heq⟩ := Option.ite_none_right_eq_some.mp hpusher
      obtain rfl := Option.some.inj heq
      have hsize := cluster.peers_le
      rw [Cluster.peers] at hindex htarget
      exact ⟨rfl, UInt64.toNat_ofNat_of_lt' (by omega), UInt64.toNat_ofNat_of_lt' (by omega),
        hremote, hdropped⟩
    · have hpusher : state.pushers (worker, channel, target) = some pusher :=
        (if_neg hnew).symm.trans hpusher
      exact h.pushers hpusher

theorem Represents.drop_puller (h : Represents codec cluster state mail history)
    (hdrop : (state.workers index).drop_puller channel = some allocator') :
    Represents codec cluster { state with workers := Function.update state.workers index allocator' }
      mail history := by
  have hstaged : allocator'.staged = (state.workers index).staged := by
    obtain ⟨-, heq⟩ := Option.ite_none_right_eq_some.mp hdrop
    obtain rfl := Option.some.inj heq
    rfl
  have hkeeps := (h.holds (.received index)).drop_puller hdrop
  refine ⟨h.on_route, h.flows, h.set_worker hstaged hkeeps, h.sent, h.pushers, h.closed,
    h.stash, h.complete⟩

theorem Represents.pull (h : Represents codec cluster state mail history) {payload : List UInt8}
    (hpull : (state.workers index).pull channel = some (payload, allocator')) :
    Represents codec cluster { state with workers := Function.update state.workers index allocator' }
      mail (history.record (.pull index channel payload)) := by
  have hstaged : allocator'.staged = (state.workers index).staged := by
    obtain ⟨-, heq⟩ := Option.ite_none_right_eq_some.mp hpull
    rcases hlocal : (state.workers index).to_local channel with _ | _ | ⟨bytes, queue⟩
    · rw [hlocal] at heq
      cases heq
    · rw [hlocal] at heq
      cases heq
    · rw [hlocal] at heq
      obtain ⟨-, rfl⟩ := Prod.mk.inj (Option.some.inj heq)
      rfl
  have hkeeps := (h.holds (.received index)).pull hpull
  refine ⟨h.on_route, h.flows, fun place => ?_, h.sent, h.pushers, h.closed, h.stash,
    h.complete⟩
  · have hplace := h.holds place
    cases place with
    | staged worker =>
      rw [Holds, apply_update TcpAllocator.staged]
      · exact hplace
      · exact hstaged
    | received worker =>
      rw [Holds]
      by_cases hworker : worker = index
      · -- only the one channel has been pulled from
        subst hworker
        have hpulled : (fun channel' => (history.record (.pull worker channel payload)).pulled
              (worker, channel'))
            = Function.update (fun channel' => history.pulled (worker, channel')) channel
              (history.pulled (worker, channel) ++ [payload]) := by
          funext channel'
          by_cases hchannel : channel' = channel
          · rw [hchannel, Function.update_self]
            exact Function.update_self _ _ _
          · rw [Function.update_of_ne hchannel]
            exact Function.update_of_ne (by simpa using hchannel) _ _
        rw [hpulled]
        simp only [Function.update_self]
        exact hkeeps
      · have hpulled : (fun channel' => (history.record (.pull index channel payload)).pulled
              (worker, channel')) = fun channel' => history.pulled (worker, channel') := by
          funext channel'
          exact Function.update_of_ne (by simpa using fun heq => absurd heq hworker) _ _
        rw [hpulled]
        simp only [Function.update_of_ne hworker]
        exact hplace
    | _ => exact hplace

end Channels

/-! ### Sending -/

section Sending

variable {index process slot : ℕ} {channel : UInt64}

/-- There is nothing to publish. -/
theorem Represents.publish (h : Represents codec cluster state mail history)
    (merges : ℕ → List Bool) : state.publish index merges = state.endpoints := by
  funext ⟨worker, slot⟩
  by_cases hworker : worker = index
  · rw [Transport.publish]
    exact (if_pos hworker).trans (SendEndpoint.send_buffer_of_empty (h.sent (worker, slot)) _)
  · exact if_neg hworker

theorem Represents.release (h : Represents codec cluster state mail history)
    (merges : ℕ → List Bool) :
    Represents codec cluster { state with endpoints := state.publish index merges } mail history := by
  rw [h.publish merges]
  exact h

theorem Represents.drop_endpoints (h : Represents codec cluster state mail history)
    (merges : ℕ → List Bool) :
    Represents codec cluster
      { state with
        pushers := fun (worker, channel, target) =>
          if worker = index then none else state.pushers (worker, channel, target)
        endpoints := state.publish index merges
        dropped := Function.update state.dropped index true } mail history := by
  rw [h.publish merges]
  refine ⟨h.on_route, h.flows, fun place => ?_, h.sent, ?_, h.closed, h.stash, ?_⟩
  · have hplace := h.holds place
    cases place <;> exact hplace
  · intro worker channel target pusher hpusher
    by_cases hworker : worker = index
    · have hnone : none = some pusher := (if_pos hworker).symm.trans hpusher
      cases hnone
    · have hbefore : state.pushers (worker, channel, target) = some pusher :=
        (if_neg hworker).symm.trans hpusher
      obtain ⟨hchannel, hsource, htarget, hremote, hkept⟩ := h.pushers hbefore
      exact ⟨hchannel, hsource, htarget, hremote,
        (Function.update_of_ne hworker _ _).trans hkept⟩
  · intro worker slot hout
    obtain ⟨hdropped, hsend⟩ := h.complete worker slot hout
    refine ⟨?_, hsend⟩
    by_cases hworker : worker = index
    · rw [hworker]
      exact Function.update_self _ _ _
    · exact (Function.update_of_ne hworker _ _).trans hdropped

/-- A push adds a message to the queue of its worker. -/
theorem Represents.push (h : Represents codec cluster state mail history) (hlawful : codec.Lawful)
    {target : ℕ} {payload rest : List UInt8} {pusher pusher' : Pusher} {endpoint' : SendEndpoint}
    {room : Bool} {merges merges' : List Bool}
    (hpusher : state.pushers (index, channel, target) = some pusher)
    (hpush : pusher.push codec
      (state.endpoints (index, Cluster.slot (cluster.process index) (cluster.process target)))
      payload room merges merges' rest = some (pusher', endpoint')) :
    ∃ mail', Represents codec cluster
      { state with
        pushers := Function.update state.pushers (index, channel, target) (some pusher')
        endpoints := Function.update state.endpoints
          (index, Cluster.slot (cluster.process index) (cluster.process target)) endpoint' }
      mail' (history.record (.push index channel target payload)) := by
  obtain ⟨hchannel, hsource, htarget, hremote, hkept⟩ := h.pushers hpusher
  have hsocket := Cluster.socket_slot hremote
  have hqueued : Carries codec
      (state.endpoints (index, Cluster.slot (cluster.process index) (cluster.process target))).send
      (mail (.queued index (cluster.process target))) :=
    h.holds (.queued index (cluster.process target)) _ hsocket
  obtain ⟨frame, hpayload, hchannel', hsource', htarget', hpusher', hvalid, hsend⟩ :=
    Pusher.push_spec hlawful (h.sent _) hqueued hpush
  have hflow : cluster.routing.flow frame = (index, target) := by
    refine Prod.ext ?_ ?_
    · exact (congrArg UInt64.toNat hsource').trans hsource
    · exact (congrArg UInt64.toNat htarget').trans htarget
  have hlast : (cluster.routing.route (cluster.routing.flow frame)).getLast?
      = some (.queued index (cluster.process target)) := by
    rw [hflow]
    rfl
  refine ⟨Routing.enter (.queued index (cluster.process target)) frame mail, ?_⟩
  constructor
  · exact Routing.OnRoute.enter h.on_route (List.mem_of_getLast? hlast)
  · intro source channel₁ target₁
    rw [Routing.all_enter hlast, hflow, List.filter_append, List.map_append, h.flows]
    by_cases hsame : (index, target) = (source, target₁)
    · obtain ⟨rfl, rfl⟩ := Prod.mk.inj hsame
      rw [if_pos rfl]
      by_cases hchannel₁ : channel₁ = channel
      · subst hchannel₁
        rw [List.filter_cons_of_pos (by simpa using hchannel'.trans hchannel), List.filter_nil,
          List.map_singleton, hpayload]
        exact (Function.update_self (index, channel₁, target) _ history.pushed).symm
      · have hne : frame.header.channel ≠ channel₁ := by
          rw [hchannel', hchannel]
          exact fun heq => hchannel₁ heq.symm
        rw [List.filter_cons_of_neg (by simpa using hne), List.filter_nil, List.map_nil,
          List.append_nil]
        have hkey : (index, channel₁, target) ≠ (index, channel, target) := by
          simpa using hchannel₁
        exact (Function.update_of_ne hkey _ _).symm
    · rw [if_neg hsame, List.filter_nil, List.map_nil, List.append_nil]
      have hkey : (source, channel₁, target₁) ≠ (index, channel, target) := by
        intro heq
        simp only [Prod.mk.injEq] at heq
        exact hsame (by rw [heq.1, heq.2.2])
      exact (Function.update_of_ne hkey _ _).symm
  · intro place
    have hplace := h.holds place
    cases place with
    | queued worker remote =>
      intro slot hslot
      by_cases hkey : (worker, slot)
          = (index, Cluster.slot (cluster.process index) (cluster.process target))
      · obtain ⟨rfl, rfl⟩ := Prod.mk.inj hkey
        rw [hsocket] at hslot
        subst hslot
        simp only [Function.update_self, Routing.enter, if_true]
        exact hsend
      · -- the queue to another process, or of another worker
        have hne : Place.queued worker remote ≠ .queued index (cluster.process target) := by
          intro heq
          obtain ⟨rfl, rfl⟩ := Place.queued.inj heq
          rw [← hsocket] at hslot
          exact hkey (by rw [Cluster.socket_inj hslot])
        simp only [Function.update_of_ne hkey, Routing.enter, if_neg hne]
        exact hplace slot hslot
    | _ =>
      rw [Routing.enter, if_neg (by simp)]
      exact hplace
  · intro key
    by_cases hkey : key = (index, Cluster.slot (cluster.process index) (cluster.process target))
    · simp only [hkey, Function.update_self]
      exact hvalid
    · simp only [Function.update_of_ne hkey]
      exact h.sent key
  · intro worker channel₁ target₁ pusher₁ hpusher₁
    by_cases hkey : (worker, channel₁, target₁) = (index, channel, target)
    · simp only [Prod.mk.injEq] at hkey
      obtain ⟨rfl, rfl, rfl⟩ := hkey
      obtain rfl : pusher' = pusher₁ := by
        simpa only [Function.update_self, Option.some.injEq] using hpusher₁
      refine ⟨?_, ?_, ?_, hremote, hkept⟩
      · rw [hpusher']
        exact hchannel
      · rw [hpusher']
        exact hsource
      · rw [hpusher']
        exact htarget
    · simp only [Function.update_of_ne hkey] at hpusher₁
      exact h.pushers hpusher₁
  · exact h.closed
  · exact h.stash
  · intro worker slot hout
    obtain ⟨hdropped, hsend₁⟩ := h.complete worker slot hout
    have hkey : (worker, slot)
        ≠ (index, Cluster.slot (cluster.process index) (cluster.process target)) := by
      intro hkey
      rw [(Prod.mk.inj hkey).1, hkept] at hdropped
      cases hdropped
    refine ⟨hdropped, ?_⟩
    simp only [Function.update_of_ne hkey]
    exact hsend₁

/-- The stream that a send loop of a worker's process writes to is that of one slot. -/
theorem outgoing_inj {process' slot' : ℕ} (h : outbound process' slot' = outbound process slot) :
    process' = process ∧ slot' = slot := by
  obtain ⟨rfl, hsocket⟩ := Prod.mk.inj h
  exact ⟨rfl, Cluster.socket_inj hsocket⟩

theorem Represents.drain (h : Represents codec cluster state mail history)
    {vec queue : List (List UInt8)}
    (hsource : index ∈ (state.links (outbound (cluster.process index) slot)).sources)
    (hdrain : MergeQueue.drain_into (state.endpoints (index, slot)).send
      (state.links (outbound (cluster.process index) slot)).stash = (vec, queue)) :
    ∃ mail', Represents codec cluster
      { state with
        endpoints := Function.update state.endpoints (index, slot)
          { state.endpoints (index, slot) with send := queue }
        links := Function.update state.links (outbound (cluster.process index) slot)
          { state.links (outbound (cluster.process index) slot) with stash := vec } }
      mail' history := by
  obtain ⟨rfl, rfl⟩ := Prod.mk.inj hdrain
  refine ⟨cluster.routing.move (.queued index (Cluster.socket (cluster.process index) slot))
    (mail (.queued index (Cluster.socket (cluster.process index) slot))) [] mail,
    h.move _ (List.append_nil _).symm (by simp) ?_ ?_ h.pushers ?_ ?_ ?_⟩
  · intro place
    have hplace := h.holds place
    cases place with
    | queued worker remote =>
      by_cases hsame : Place.queued worker remote
          = .queued index (Cluster.socket (cluster.process index) slot)
      · obtain ⟨rfl, rfl⟩ := Place.queued.inj hsame
        intro slot' hslot'
        obtain rfl := Cluster.socket_inj hslot'
        simp only [Routing.move_self, Function.update_self]
        exact Carries.nil
      · rw [Cluster.move_other hsame (by simp [Cluster.next])]
        intro slot' hslot'
        have hkey : (worker, slot') ≠ (index, slot) := by
          rintro ⟨⟩
          exact hsame (by rw [hslot'])
        simp only [Function.update_of_ne hkey]
        exact hplace slot' hslot'
    | stashed process remote =>
      by_cases hkey : (process, remote) = outbound (cluster.process index) slot
      · -- all that was in the queue is added to the stash
        obtain ⟨rfl, rfl⟩ := Prod.mk.inj hkey
        rw [Cluster.move_next (by simp) (by simp [Cluster.next]), Holds]
        simp only [outbound, Function.update_self]
        exact Carries.append hplace
          (h.holds (.queued index (Cluster.socket (cluster.process index) slot)) slot rfl)
      · rw [Cluster.move_other (by simp) (by simpa [Cluster.next, outbound, eq_comm] using hkey)]
        simp only [Holds, Function.update_of_ne hkey]
        exact hplace
    | flowing process remote =>
      rw [Cluster.move_other (by simp) (by simp [Cluster.next])]
      exact Streams.update hplace rfl rfl rfl rfl
    | carved process worker =>
      rw [Cluster.move_other (by simp) (by simp [Cluster.next]), Holds, apply_update Link.stageds]
      · exact hplace
      · rfl
    | arrived process worker =>
      rw [Cluster.move_other (by simp) (by simp [Cluster.next]), Holds, apply_update Link.targets]
      · exact hplace
      · rfl
    | _ =>
      rw [Cluster.move_other (by simp) (by simp [Cluster.next])]
      exact hplace
  · intro key
    refine (apply_update SendEndpoint.valid ?_ key).trans (h.sent key)
    rfl
  · intro key hclosed
    simp only [apply_update Link.closed, apply_update Link.sources] at hclosed ⊢
    exact h.closed key hclosed
  · intro key hsources
    by_cases hkey : key = outbound (cluster.process index) slot
    · subst hkey
      simp only [Function.update_self] at hsources
      rw [hsources] at hsource
      exact absurd hsource List.not_mem_nil
    · simp only [Function.update_of_ne hkey] at hsources ⊢
      exact h.stash key hsources
  · intro worker slot' hout
    simp only [apply_update Link.sources] at hout
    obtain ⟨hdropped, hsend⟩ := h.complete worker slot' hout
    refine ⟨hdropped, ?_⟩
    by_cases hkey : (worker, slot') = (index, slot)
    · simp only [hkey, Function.update_self]
    · simp only [Function.update_of_ne hkey]
      exact hsend

/-- A link that keeps its sources keeps what they have to do with it. -/
theorem Represents.set_link (h : Represents codec cluster state mail history) (key : ℕ × ℕ)
    (link : Link) (hsources : link.sources = (state.links key).sources)
    (hclosed : link.closed = (state.links key).closed)
    (hstash : link.sources = [] → link.stash = []) :
    (∀ key', (Function.update state.links key link key').closed = true →
      (Function.update state.links key link key').sources = [])
    ∧ (∀ key', (Function.update state.links key link key').sources = [] →
      (Function.update state.links key link key').stash = [])
    ∧ ∀ key', (Function.update state.links key link key').sources = (state.links key').sources := by
  have hsame : ∀ key', (Function.update state.links key link key').sources
      = (state.links key').sources := apply_update Link.sources hsources
  refine ⟨fun key' hclosed' => ?_, fun key' hsources' => ?_, hsame⟩
  · rw [hsame]
    rw [apply_update Link.closed hclosed] at hclosed'
    exact h.closed key' hclosed'
  · by_cases hkey : key' = key
    · subst hkey
      rw [Function.update_self] at hsources' ⊢
      exact hstash hsources'
    · rw [Function.update_of_ne hkey] at hsources' ⊢
      exact h.stash key' hsources'

/-- A stream with sources left goes on. -/
theorem Represents.open_ (h : Represents codec cluster state mail history) {key : ℕ × ℕ}
    (hsources : (state.links key).sources ≠ []) : (state.links key).closed = false :=
  Bool.eq_false_iff.mpr fun hclosed => hsources (h.closed key hclosed)

theorem Represents.write (h : Represents codec cluster state mail history)
    {bytes : List UInt8} {stash : List (List UInt8)}
    (hstash : (state.links (outbound process slot)).stash = bytes :: stash) :
    ∃ mail', Represents codec cluster
      { state with
        links := Function.update state.links (outbound process slot)
          { state.links (outbound process slot) with
            stash, wire := (state.links (outbound process slot)).wire ++ bytes } }
      mail' history := by
  have hsources : (state.links (outbound process slot)).sources ≠ [] := by
    intro hnil
    rw [h.stash _ hnil] at hstash
    cases hstash
  have hcarries : Carries codec (state.links (outbound process slot)).stash
      (mail (.stashed process (Cluster.socket process slot))) := h.holds (.stashed process _)
  rw [hstash] at hcarries
  obtain ⟨items, rest, hbytes, hrest, hsrc⟩ := hcarries.of_cons
  obtain ⟨hclosed', hstash', hsources'⟩ := h.set_link (outbound process slot)
    { state.links (outbound process slot) with
      stash, wire := (state.links (outbound process slot)).wire ++ bytes }
    rfl rfl fun hnil => absurd hnil hsources
  have hflowing : Streams codec (state.links (outbound process slot))
      (mail (.flowing process (Cluster.socket process slot))) := h.holds (.flowing process _)
  refine ⟨_, h.move _ hsrc (by simp) ?_ h.sent h.pushers hclosed' hstash' ?_⟩
  · intro place
    have hplace := h.holds place
    cases place with
    | stashed process' remote =>
      by_cases hkey : (process', remote) = outbound process slot
      · obtain ⟨rfl, rfl⟩ := Prod.mk.inj hkey
        rw [Routing.move_self]
        simp only [Holds, outbound, Function.update_self]
        exact hrest
      · rw [Cluster.move_other (by simpa [outbound] using hkey) (by simp [Cluster.next])]
        simp only [Holds, Function.update_of_ne hkey]
        exact hplace
    | flowing process' remote =>
      by_cases hkey : (process', remote) = outbound process slot
      · -- the messages written are behind all others in the stream
        obtain ⟨rfl, rfl⟩ := Prod.mk.inj hkey
        rw [Cluster.move_next (by simp) (by simp [Cluster.next])]
        have hopen := h.open_ hsources
        have hactive : (state.links (outbound process' slot)).active = true := by
          by_contra hdone
          have hended := (hflowing.ended (Bool.eq_false_iff.mpr hdone)).1
          exact Bool.false_ne_true (hopen.symm.trans hended)
        have hstream := hflowing.bytes hactive
        have hpart := hflowing.part
        simp only [outbound] at hopen hactive hstream hpart
        simp only [Holds, outbound, Function.update_self]
        refine ⟨fun _ => ?_, hpart, fun hdone => ?_⟩
        · simp only [hopen, Bool.false_eq_true, if_false, List.append_nil] at hstream ⊢
          rw [← List.append_assoc, hstream, hbytes, Frame.stream_append]
        · simp only [hactive] at hdone
          cases hdone
      · rw [Cluster.move_other (by simp) (by simpa [Cluster.next, outbound, eq_comm] using hkey)]
        simp only [Holds, Function.update_of_ne hkey]
        exact hplace
    | carved process' worker =>
      rw [Cluster.move_other (by simp) (by simp [Cluster.next]), Holds, apply_update Link.stageds]
      · exact hplace
      · rfl
    | arrived process' worker =>
      rw [Cluster.move_other (by simp) (by simp [Cluster.next]), Holds, apply_update Link.targets]
      · exact hplace
      · rfl
    | _ =>
      rw [Cluster.move_other (by simp) (by simp [Cluster.next])]
      exact hplace
  · intro worker slot' hout
    rw [hsources'] at hout
    exact h.complete worker slot' hout

/-- Where the mail does not move, the bytes of a link stay. -/
theorem Represents.keep_link (h : Represents codec cluster state mail history) {key : ℕ × ℕ}
    {link : Link} (hstash : link.stash = (state.links key).stash)
    (hstreams : Streams codec link (mail (.flowing key.1 key.2)))
    (hstageds : link.stageds = (state.links key).stageds)
    (htargets : link.targets = (state.links key).targets) (place : Place) :
    Holds codec cluster { state with links := Function.update state.links key link } history place
      (mail place) := by
  have hplace := h.holds place
  cases place with
  | stashed process remote =>
    rw [Holds, apply_update Link.stash hstash]
    exact hplace
  | flowing process remote =>
    rw [Holds]
    by_cases hkey : (process, remote) = key
    · subst hkey
      simp only [Function.update_self]
      exact hstreams
    · simp only [Function.update_of_ne hkey]
      exact hplace
  | carved process worker =>
    rw [Holds, apply_update Link.stageds hstageds]
    exact hplace
  | arrived process worker =>
    rw [Holds, apply_update Link.targets htargets]
    exact hplace
  | _ => exact hplace

theorem Represents.retain (h : Represents codec cluster state mail history)
    (hstash : (state.links (outbound process slot)).stash = []) :
    Represents codec cluster
      { state with
        links := Function.update state.links (outbound process slot)
          { state.links (outbound process slot) with
            sources := (state.links (outbound process slot)).sources.filter fun source =>
              !state.is_complete slot source } } mail history := by
  have hflowing : Streams codec (state.links (outbound process slot))
      (mail (.flowing process (Cluster.socket process slot))) := h.holds (.flowing process _)
  refine ⟨h.on_route, h.flows, h.keep_link rfl ?_ rfl rfl, h.sent, h.pushers, ?_, ?_, ?_⟩
  · exact ⟨hflowing.bytes, hflowing.part, hflowing.ended⟩
  · intro key hclosed
    simp only [apply_update Link.closed] at hclosed
    by_cases hkey : key = outbound process slot
    · subst hkey
      simp only [Function.update_self, h.closed _ hclosed, List.filter_nil]
    · simp only [Function.update_of_ne hkey]
      exact h.closed key hclosed
  · intro key hsources
    by_cases hkey : key = outbound process slot
    · subst hkey
      simp only [Function.update_self]
      exact hstash
    · simp only [Function.update_of_ne hkey] at hsources ⊢
      exact h.stash key hsources
  · intro worker slot' hout
    by_cases hkey : outbound (cluster.process worker) slot' = outbound process slot
    · -- a source is let go when it is complete
      obtain ⟨-, rfl⟩ := outgoing_inj hkey
      simp only [hkey, Function.update_self, List.mem_filter, not_and, Bool.not_eq_true',
        Bool.not_eq_false] at hout
      by_cases hmem : worker ∈ (state.links (outbound process slot')).sources
      · have hcomplete := hout hmem
        rw [is_complete, Bool.and_eq_true, List.isEmpty_iff] at hcomplete
        exact hcomplete
      · rw [← hkey] at hmem
        exact h.complete worker slot' hmem
    · simp only [Function.update_of_ne hkey] at hout
      exact h.complete worker slot' hout

theorem Represents.shutdown (h : Represents codec cluster state mail history)
    (hsources : (state.links (outbound process slot)).sources = [])
    (hopen : (state.links (outbound process slot)).closed = false) :
    Represents codec cluster
      { state with
        links := Function.update state.links (outbound process slot)
          { state.links (outbound process slot) with
            wire := (state.links (outbound process slot)).wire ++ codec.encode final_header
            closed := true } } mail history := by
  have hflowing : Streams codec (state.links (outbound process slot))
      (mail (.flowing process (Cluster.socket process slot))) := h.holds (.flowing process _)
  refine ⟨h.on_route, h.flows, h.keep_link rfl ?_ rfl rfl, h.sent, h.pushers, ?_, ?_, ?_⟩
  · refine ⟨fun hactive => ?_, hflowing.part, fun hdone => ?_⟩
    · have hstream := hflowing.bytes hactive
      rw [hopen, if_neg Bool.false_ne_true, List.append_nil] at hstream
      rw [if_pos rfl, ← List.append_assoc, hstream]
      rfl
    · have hended := (hflowing.ended hdone).1
      exact absurd (hopen.symm.trans hended) Bool.false_ne_true
  · intro key hclosed
    simp only [apply_update Link.sources]
    by_cases hkey : key = outbound process slot
    · rw [hkey]
      exact hsources
    · simp only [Function.update_of_ne hkey] at hclosed
      exact h.closed key hclosed
  · intro key hsources'
    simp only [apply_update Link.sources, apply_update Link.stash] at hsources' ⊢
    exact h.stash key hsources'
  · intro worker slot' hout
    simp only [apply_update Link.sources] at hout
    exact h.complete worker slot' hout

end Sending

end Timely.Network
