/-
  Timely/Network/MergeQueue.lean
  ==============================
  **From a pusher to a queue of bytes** (`allocator/zero_copy/bytes_exchange.rs` and
  `push_pull.rs`).

  A pusher writes a header and its data behind the valid bytes of an endpoint's
  slab, makes them valid and sends them.  The queue tries to merge what it is given
  with its last entry; whether a merge succeeds depends on where slices lie in
  memory, and any outcome is allowed for.  What bytes a handle holds cannot change
  while it is held, so that they stand here for themselves.
-/
import Timely.Network.MessageHeader

set_option linter.unusedSectionVars false

namespace Timely.Network

/-! ### Queues which merge adjacent bytes -/

namespace MergeQueue

/-- Appends to a popped `tail`, entry by entry, where merging succeeds. -/
def merge_all : List Bool → List UInt8 → List (List UInt8) → List (List UInt8)
  | _, tail, [] => [tail]
  | true :: merges, tail, bytes :: items => merge_all merges (tail ++ bytes) items
  | false :: merges, tail, bytes :: items => tail :: merge_all merges bytes items
  | [], tail, bytes :: items => tail :: merge_all [] bytes items

/-- Pushes many bytes at the queue. -/
def extend (merges : List Bool) (queue items : List (List UInt8)) : List (List UInt8) :=
  match items with
  | [] => queue
  | bytes :: items =>
    match queue.getLast? with
    | some tail => queue.dropLast ++ merge_all merges tail (bytes :: items)
    | none => merge_all merges bytes items

/-- Drains many bytes from the queue: what was drained, and the queue. -/
def drain_into (queue vec : List (List UInt8)) : List (List UInt8) × List (List UInt8) :=
  (vec ++ queue, [])

variable {codec : Codec} {queue items : List (List UInt8)} {frames more : List Frame}

theorem carries_merge_all (merges : List Bool) (first : List Frame)
    (h : Carries codec items frames) :
    Carries codec (merge_all merges (Frame.stream codec first) items) (first ++ frames) := by
  induction items generalizing merges first frames with
  | nil =>
    rw [h.eq_nil, List.append_nil]
    cases merges <;> exact Carries.singleton first
  | cons bytes items ih =>
    obtain ⟨front, back, rfl, hitems, rfl⟩ := h.of_cons
    have happend : Carries codec
        (Frame.stream codec first :: merge_all merges.tail (Frame.stream codec front) items)
        (first ++ (front ++ back)) :=
      (Carries.singleton first).append (ih merges.tail front hitems)
    rcases merges with _ | ⟨merged, merges⟩
    · exact happend
    · cases merged with
      | false => exact happend
      | true =>
        have hmerged := ih merges (first ++ front) hitems
        rwa [Frame.stream_append, List.append_assoc] at hmerged

/-- However entries are merged, the messages are those of before and then those added. -/
theorem carries_extend (merges : List Bool) (h : Carries codec queue frames)
    (hitems : Carries codec items more) :
    Carries codec (extend merges queue items) (frames ++ more) := by
  rcases items with _ | ⟨bytes, items⟩
  · rw [hitems.eq_nil, List.append_nil]
    exact h
  · rw [extend]
    cases hlast : queue.getLast? with
    | some tail =>
      have hsplit := List.dropLast_append_getLast? tail hlast
      rw [← hsplit] at h
      obtain ⟨first, last, rfl, hfirst, rfl⟩ := h.of_snoc
      rw [List.append_assoc]
      exact hfirst.append (carries_merge_all merges last hitems)
    | none =>
      obtain rfl := List.getLast?_eq_none_iff.mp hlast
      obtain ⟨front, back, rfl, hback, rfl⟩ := hitems.of_cons
      rw [h.eq_nil]
      exact carries_merge_all merges front hback

end MergeQueue

/-! ### Staged writes -/

/-- A queue with a slab in front of it, which stages writes. -/
structure SendEndpoint where
  send : List (List UInt8)
  /-- The valid bytes of the slab. -/
  valid : List UInt8

namespace SendEndpoint

variable (endpoint : SendEndpoint)

def new : SendEndpoint := { send := [], valid := [] }

/-- Moves the valid bytes into `send`. -/
def send_buffer (merges : List Bool) : SendEndpoint :=
  if endpoint.valid.length > 0 then
    { send := MergeQueue.extend merges endpoint.send [endpoint.valid], valid := [] }
  else endpoint

/-- Makes the next `bytes` bytes of the slab's `region` valid, and sends them. -/
def make_valid (merges : List Bool) (region : List UInt8) (bytes : ℕ) : SendEndpoint :=
  { endpoint with valid := endpoint.valid ++ region.take bytes }.send_buffer merges

/-- Acquires a region to write to; a slab without `room` for it is sent before it is replaced. -/
def reserve (room : Bool) (merges : List Bool) : SendEndpoint :=
  if room then endpoint else endpoint.send_buffer merges

/-- Marks all written data as valid, makes visible. -/
def publish (merges : List Bool) : SendEndpoint := endpoint.send_buffer merges

variable {endpoint}

theorem send_buffer_of_empty (h : endpoint.valid = []) (merges : List Bool) :
    endpoint.send_buffer merges = endpoint := by
  refine if_neg ?_
  rw [h]
  exact Nat.lt_irrefl 0

theorem reserve_of_empty (h : endpoint.valid = []) (room : Bool) (merges : List Bool) :
    endpoint.reserve room merges = endpoint := by
  cases room with
  | true => rfl
  | false => exact send_buffer_of_empty h merges

end SendEndpoint

/-! ### Pushers -/

/-- An adapter into which one may push elements, with a fixed header up to the sequence number. -/
structure Pusher where
  header : MessageHeader

namespace Pusher

/-- Pushes an element, which is written as `payload`.  The slab may have `room` for it or
    not, and behind what is written there is any `rest`.  Empty elements are refused, and
    the number of bytes required is a word. -/
def push (codec : Codec) (pusher : Pusher) (endpoint : SendEndpoint) (payload : List UInt8)
    (room : Bool) (merges merges' : List Bool) (rest : List UInt8) :
    Option (Pusher × SendEndpoint) :=
  if payload.length > 0 ∧ header_bytes + payload.length < UInt64.size then
    let header := { pusher.header with length := UInt64.ofNat payload.length }
    let reserved := endpoint.reserve room merges
    let region := codec.encode header ++ payload ++ rest
    some ({ header := { pusher.header with seqno := pusher.header.seqno + 1 } },
      reserved.make_valid merges' region header.required_bytes)
  else none

variable {codec : Codec} {pusher pusher' : Pusher} {endpoint endpoint' : SendEndpoint}
  {payload rest : List UInt8} {room : Bool} {merges merges' : List Bool} {frames : List Frame}

/-- A push adds one message, and leaves nothing behind in the slab. -/
theorem push_spec (hlawful : codec.Lawful) (hvalid : endpoint.valid = [])
    (hsend : Carries codec endpoint.send frames)
    (h : pusher.push codec endpoint payload room merges merges' rest
      = some (pusher', endpoint')) :
    ∃ frame : Frame, frame.payload = payload
      ∧ frame.header.channel = pusher.header.channel
      ∧ frame.header.source = pusher.header.source
      ∧ frame.header.target = pusher.header.target
      ∧ pusher'.header = { pusher.header with seqno := pusher.header.seqno + 1 }
      ∧ endpoint'.valid = []
      ∧ Carries codec endpoint'.send (frames ++ [frame]) := by
  by_cases hroom : payload.length > 0 ∧ header_bytes + payload.length < UInt64.size
  · rw [push, if_pos hroom, SendEndpoint.reserve_of_empty hvalid] at h
    obtain ⟨rfl, rfl⟩ := Prod.mk.inj (Option.some.inj h)
    obtain ⟨hpos, hsize⟩ := hroom
    have hlength : (UInt64.ofNat payload.length).toNat = payload.length :=
      UInt64.toNat_ofNat_of_lt' (by omega)
    let frame : Frame :=
      { header := { pusher.header with length := UInt64.ofNat payload.length }
        payload, length_eq := hlength, nonempty := hpos }
    have htake : (codec.encode frame.header ++ payload ++ rest).take
        frame.header.required_bytes = frame.bytes codec := Frame.take_bytes hlawful frame rest
    have hstream : frame.bytes codec = Frame.stream codec [frame] := by
      rw [Frame.stream_cons, Frame.stream_nil, List.append_nil]
    refine ⟨frame, rfl, rfl, rfl, rfl, rfl, ?_⟩
    rw [SendEndpoint.make_valid, htake, hvalid, List.nil_append, SendEndpoint.send_buffer,
      if_pos (Frame.length_bytes_pos hlawful frame), hstream]
    exact ⟨rfl, MergeQueue.carries_extend merges' hsend (Carries.singleton [frame])⟩
  · rw [push, if_neg hroom] at h
    cases h

end Pusher

end Timely.Network
