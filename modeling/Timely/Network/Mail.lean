/-
  Timely/Network/Mail.lean
  ========================
  **Messages on their way.**

  The abstract picture of the transport: messages wait in places, and go from place
  to place along the route from their source to their target.  A state represents
  the picture when the bytes at each place are those of the messages there.
-/
import Timely.Library.Pipeline
import Timely.Network.Transport

set_option linter.unusedSectionVars false

namespace Timely.Network

open Library

/-- Where messages are. -/
inductive Place where
  /-- In the queue of a worker to another process. -/
  | queued (worker process : ℕ)
  /-- In the stash of a send loop. -/
  | stashed (process remote : ℕ)
  /-- In a stream, or in the buffer of its receiver. -/
  | flowing (process remote : ℕ)
  /-- Staged by a receive loop. -/
  | carved (process worker : ℕ)
  /-- In the queue from another process to a worker. -/
  | arrived (process worker : ℕ)
  /-- Staged by a worker. -/
  | staged (worker : ℕ)
  /-- Received by a worker. -/
  | received (worker : ℕ)
  deriving DecidableEq

/-- What is where. -/
abbrev Mail := Place → List Frame

namespace Frame

def source (frame : Frame) : ℕ := frame.header.source.toNat

def target (frame : Frame) : ℕ := frame.header.target.toNat

end Frame

namespace Cluster

variable (cluster : Cluster)

/-- The place behind a place, for messages to a target. -/
def next (target : ℕ) : Place → Place
  | .queued worker process => .stashed (cluster.process worker) process
  | .stashed process remote => .flowing process remote
  | .flowing process _ => .carved process target
  | .carved process worker => .arrived process worker
  | .arrived _ worker => .staged worker
  | .staged worker => .received worker
  | .received worker => .received worker

/-- The places on the way from a source to a target, before the last one. -/
def way (source target : ℕ) : List Place :=
  [.staged target, .arrived (cluster.process source) target, .carved (cluster.process source) target,
    .flowing (cluster.process source) (cluster.process target),
    .stashed (cluster.process source) (cluster.process target),
    .queued source (cluster.process target)]

/-- Messages flow from a source to a target. -/
def routing : Routing Place Frame (ℕ × ℕ) where
  flow frame := (frame.source, frame.target)
  route φ := .received φ.2 :: cluster.way φ.1 φ.2
  next φ := cluster.next φ.2
  nodup φ := by simp [way]
  next_mem := by
    rintro ⟨source, target⟩ place hmem hlast
    simp only [way, List.mem_cons, List.not_mem_nil, or_false] at hmem
    rcases hmem with rfl | rfl | rfl | rfl | rfl | rfl | rfl
    · exact absurd rfl hlast
    · exact ⟨[], _, rfl⟩
    · exact ⟨[_], _, rfl⟩
    · exact ⟨[_, _], _, rfl⟩
    · exact ⟨[_, _, _], _, rfl⟩
    · exact ⟨[_, _, _, _], _, rfl⟩
    · exact ⟨[_, _, _, _, _], _, rfl⟩

end Cluster

/-! ### What a state has to do with it -/

/-- The bytes of a stream are messages, and at its end the final header; those at the
    receiver are not yet a message. -/
structure Streams (codec : Codec) (link : Link) (frames : List Frame) : Prop where
  bytes : link.active = true → link.valid ++ link.wire
    = Frame.stream codec frames ++ if link.closed then codec.encode final_header else []
  part : MessageHeader.try_read codec link.valid = none
  ended : link.active = false → link.closed = true ∧ frames = [] ∧ link.wire = []

/-- The bytes at a place are those of these messages. -/
def Holds (codec : Codec) (cluster : Cluster) (state : Transport) (history : History) :
    Place → List Frame → Prop
  | .queued worker process, frames =>
    ∀ slot, Cluster.socket (cluster.process worker) slot = process →
      Carries codec (state.endpoints (worker, slot)).send frames
  | .stashed process remote, frames => Carries codec (state.links (process, remote)).stash frames
  | .flowing process remote, frames => Streams codec (state.links (process, remote)) frames
  | .carved process worker, frames =>
    Carries codec ((state.links (process, cluster.process worker)).stageds
      (worker - cluster.worker_offset (cluster.process worker))) frames
  | .arrived process worker, frames =>
    Carries codec ((state.links (process, cluster.process worker)).targets
      (worker - cluster.worker_offset (cluster.process worker))) frames
  | .staged worker, frames => Carries codec (state.workers worker).staged frames
  | .received worker, frames =>
    (state.workers worker).Keeps frames fun channel => history.pulled (worker, channel)

/-- A pusher that was made for a worker, channel and target, of another process. -/
structure Made (cluster : Cluster) (dropped : ℕ → Bool) (index : ℕ) (channel : UInt64)
    (target : ℕ) (pusher : Pusher) : Prop where
  channel_eq : pusher.header.channel = channel
  source_eq : pusher.header.source.toNat = index
  target_eq : pusher.header.target.toNat = target
  remote : cluster.process target ≠ cluster.process index
  kept : dropped index = false

/-- The state of the transport and the messages on their way, with what was pushed. -/
structure Represents (codec : Codec) (cluster : Cluster) (state : Transport) (mail : Mail)
    (history : History) : Prop where
  on_route : cluster.routing.OnRoute mail
  flows : ∀ source channel target,
    ((cluster.routing.all mail (source, target)).filter (·.header.channel = channel)).map
      Frame.payload = history.pushed (source, channel, target)
  holds : ∀ place, Holds codec cluster state history place (mail place)
  /-- Endpoints send what they have. -/
  sent : ∀ key, (state.endpoints key).valid = []
  pushers : ∀ {index channel target pusher}, state.pushers (index, channel, target) = some pusher →
    Made cluster state.dropped index channel target pusher
  /-- A stream is closed after its last source. -/
  closed : ∀ key, (state.links key).closed = true → (state.links key).sources = []
  stash : ∀ key, (state.links key).sources = [] → (state.links key).stash = []
  /-- A worker that is no source any more has nothing to send. -/
  complete : ∀ index slot,
    index ∉ (state.links (Transport.outbound (cluster.process index) slot)).sources →
      state.dropped index = true ∧ (state.endpoints (index, slot)).send = []

/-- Updates that a component does not see. -/
theorem apply_update {Key Value Part : Type*} [DecidableEq Key] {values : Key → Value} {key : Key}
    {value : Value} (part : Value → Part) (h : part value = part (values key)) (key' : Key) :
    part (Function.update values key value key') = part (values key') := by
  by_cases hkey : key' = key
  · rw [hkey, Function.update_self, h]
  · rw [Function.update_of_ne hkey]

end Timely.Network
