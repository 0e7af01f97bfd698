/-
  Timely/EventReader.lean
  =======================
  **Reading captured events from bytes**
  (`timely/src/dataflow/operators/capture/event.rs`, `binary`).

  A writer appends the encoding of each event to a byte stream.  A reader gets the
  bytes in pieces, of any sizes, and decodes events from what it has got and not
  consumed.  Decoding may change the bytes in place, also when it finds them
  incomplete; they still encode the same event when the missing bytes follow.
-/
import Mathlib.Data.List.Infix
import Mathlib.Tactic.Common

namespace Timely

/-- Encoding of events (`E` is `Event<T, D>`), and decoding of a first event from a buffer: the event and
    the rest of the bytes, if there is one, and what is in the buffer afterwards. -/
structure Abomonation (E Byte : Type) where
  encode : E → List Byte
  decode : List Byte → Option (E × List Byte) × List Byte

variable {E Byte : Type}

/-- What the reader relies on.  Some bytes encode an event: those that are written for it, and these
    after any decoding, which happens in place.  An event has some bytes, is decoded when all of them are
    there, whatever follows, and is not when some are missing. -/
structure Abomonation.Lawful (abomonation : Abomonation E Byte) (encodes : E → List Byte → Prop) : Prop where
  encode : ∀ event, encodes event (abomonation.encode event)
  nonempty : ∀ event, abomonation.encode event ≠ []
  in_place : ∀ bytes, (abomonation.decode bytes).2.length = bytes.length
  complete : ∀ event bytes rest, encodes event bytes →
    ∃ decoded, abomonation.decode (bytes ++ rest) = (some (event, rest), decoded ++ rest) ∧
      encodes event decoded
  incomplete : ∀ event bytes rest, encodes event (bytes ++ rest) → rest ≠ [] →
    ∃ decoded, abomonation.decode bytes = (none, decoded) ∧ encodes event (decoded ++ rest)

/-! ### Writing -/

/-- A byte stream that events are written to. -/
structure EventWriter (Byte : Type) where
  stream : List Byte

namespace EventWriter

/-- Encode an event to the stream. -/
def push (abomonation : Abomonation E Byte) (writer : EventWriter Byte) (event : E) : EventWriter Byte :=
  ⟨writer.stream ++ abomonation.encode event⟩

/-- The bytes that are written for events. -/
def written (abomonation : Abomonation E Byte) (events : List E) : List Byte :=
  (events.foldl (push abomonation) ⟨[]⟩).stream

theorem written_eq (abomonation : Abomonation E Byte) (events : List E) :
    written abomonation events = events.flatMap abomonation.encode := by
  have hfold : ∀ writer : EventWriter Byte, (events.foldl (push abomonation) writer).stream =
      writer.stream ++ events.flatMap abomonation.encode := by
    induction events with
    | nil => exact fun writer => (List.append_nil _).symm
    | cons event events ih =>
      intro writer
      rw [List.foldl_cons, ih, List.flatMap_cons]
      exact List.append_assoc _ _ _
  exact hfold ⟨[]⟩

end EventWriter

/-! ### Reading -/

/-- A reader: what successive calls of `read` return (bytes, or an error, and no bytes in the end), the two
    buffers, how much of the first one is consumed, and how much of it is valid. -/
structure EventReader (Byte : Type) where
  reads : List (Option (List Byte))
  buff1 : List Byte
  buff2 : List Byte
  consumed : ℕ
  valid : ℕ

namespace EventReader

/-- Allocates a new reader. -/
def new (reads : List (Option (List Byte))) : EventReader Byte := ⟨reads, [], [], 0, 0⟩

/-- Shift back what is not consumed, if there is any shifting to do. -/
def shift (reader : EventReader Byte) : EventReader Byte :=
  if 0 < reader.consumed then
    { reader with
      buff1 := reader.buff1.drop reader.consumed
      buff2 := reader.buff1
      valid := (reader.buff1.drop reader.consumed).length
      consumed := 0 }
  else reader

/-- Read once. -/
def read (reader : EventReader Byte) : EventReader Byte :=
  match reader.reads with
  | some piece :: reads =>
    { reader with reads := reads, buff1 := reader.buff1 ++ piece, valid := (reader.buff1 ++ piece).length }
  | none :: reads => { reader with reads := reads }
  | [] => { reader with valid := reader.buff1.length }

/-- The next event, if all of its bytes are there.  Otherwise the reader shifts and reads.  The result
    `none` is a panic: of a slice, of `unwrap`, or of a subtraction. -/
def next (abomonation : Abomonation E Byte) (reader : EventReader Byte) :
    Option (Option E × EventReader Byte) :=
  if reader.buff1.length < reader.consumed then none
  else
    let (first, bytes) := abomonation.decode (reader.buff1.drop reader.consumed)
    if first.isSome then
      -- what has been decoded for the check is decoded again
      match abomonation.decode bytes with
      | (some (item, rest), bytes) =>
        if reader.valid < rest.length then none
        else some (some item,
          { reader with
            buff1 := reader.buff1.take reader.consumed ++ bytes
            consumed := reader.valid - rest.length })
      | (none, _) => none
    else some (none, ({ reader with buff1 := reader.buff1.take reader.consumed ++ bytes } : EventReader Byte).shift.read)

/-- The results of successive calls of `next`. -/
def results (abomonation : Abomonation E Byte) : ℕ → EventReader Byte → Option (List (Option E) × EventReader Byte)
  | 0, reader => some ([], reader)
  | calls + 1, reader => do
    let (result, after) ← reader.next abomonation
    let (results, last) ← results abomonation calls after
    return (result :: results, last)

/-- The bytes that calls of `read` return. -/
def bytesOf (reads : List (Option (List Byte))) : List Byte := (reads.filterMap id).flatten

/-! ### The unread tail -/

/-- Bytes that encode events, one after the other. -/
inductive Encoded (encodes : E → List Byte → Prop) : List E → List Byte → Prop
  | nil : Encoded encodes [] []
  | cons {event : E} {events : List E} {bytes rest : List Byte} : encodes event bytes →
      Encoded encodes events rest → Encoded encodes (event :: events) (bytes ++ rest)

/-- The reader has got and not consumed bytes that, with those that follow, encode the events it has not
    returned.  `unread` are the bytes that it will not get. -/
structure Awaits (encodes : E → List Byte → Prop) (unread : List Byte) (events : List E)
    (reader : EventReader Byte) : Prop where
  valid : reader.valid = reader.buff1.length
  consumed : reader.consumed ≤ reader.buff1.length
  encoded : Encoded encodes events (reader.buff1.drop reader.consumed ++ (bytesOf reader.reads ++ unread))

variable {abomonation : Abomonation E Byte} {encodes : E → List Byte → Prop} {unread : List Byte}
  {events : List E} {reader : EventReader Byte}

theorem encoded_written (h : abomonation.Lawful encodes) (events : List E) :
    Encoded encodes events (events.flatMap abomonation.encode) := by
  induction events with
  | nil => exact .nil
  | cons event events ih => exact .cons (h.encode event) ih

/-- Nothing is decoded from no bytes. -/
theorem decode_nil (h : abomonation.Lawful encodes) : (abomonation.decode []).1 = none := by
  cases hdecode : (abomonation.decode []).1 with
  | none => rfl
  | some result =>
    obtain ⟨decoded, hnone, -⟩ := h.incomplete result.1 [] _ (h.encode result.1) (h.nonempty result.1)
    rw [hnone] at hdecode
    exact hdecode.symm

/-- Bytes that are there either start with all bytes of an event, or end within them. -/
theorem Encoded.split {pending later : List Byte} (h : Encoded encodes events (pending ++ later)) :
    (events = [] ∧ pending = [] ∧ later = []) ∨
    (∃ event rest bytes more, events = event :: rest ∧ pending = bytes ++ more ∧ encodes event bytes ∧
      Encoded encodes rest (more ++ later)) ∨
    ∃ event rest missing more, events = event :: rest ∧ later = missing ++ more ∧ missing ≠ [] ∧
      encodes event (pending ++ missing) ∧ Encoded encodes rest more := by
  generalize hall : pending ++ later = all at h
  cases h with
  | nil => exact Or.inl ⟨rfl, List.append_eq_nil_iff.mp hall⟩
  | @cons event events bytes rest hevent hrest =>
    right
    rcases List.append_eq_append_iff.mp hall with ⟨missing, rfl, rfl⟩ | ⟨more, rfl, rfl⟩
    · by_cases hmissing : missing = []
      · subst hmissing
        rw [List.append_nil] at hevent
        exact Or.inl ⟨event, events, pending, [], rfl, (List.append_nil pending).symm, hevent, hrest⟩
      · exact Or.inr ⟨event, events, missing, rest, rfl, rfl, hmissing, hevent, hrest⟩
    · exact Or.inl ⟨event, events, bytes, more, rfl, rfl, hevent, hrest⟩

theorem bytesOf_append (reads more : List (Option (List Byte))) :
    bytesOf (reads ++ more) = bytesOf reads ++ bytesOf more := by
  unfold bytesOf
  rw [List.filterMap_append, List.flatten_append]

/-- Reading moves bytes from those that follow to those that are there. -/
theorem Awaits.read (h : Awaits encodes unread events reader) :
    Awaits encodes unread events reader.read ∧ reader.read.reads = reader.reads.tail := by
  obtain ⟨reads, buff1, buff2, consumed, valid⟩ := reader
  obtain ⟨hvalid, hconsumed, hencoded⟩ := h
  dsimp only at hvalid hconsumed hencoded
  match reads with
  | [] => exact ⟨⟨rfl, hconsumed, hencoded⟩, rfl⟩
  | none :: reads => exact ⟨⟨hvalid, hconsumed, hencoded⟩, rfl⟩
  | some piece :: reads =>
    refine ⟨⟨rfl, ?_, ?_⟩, rfl⟩
    · change consumed ≤ (buff1 ++ piece).length
      rw [List.length_append]
      omega
    · change Encoded encodes events ((buff1 ++ piece).drop consumed ++ (bytesOf reads ++ unread))
      rw [List.drop_append_of_le_length hconsumed, List.append_assoc, ← List.append_assoc piece]
      exact hencoded

theorem Awaits.shift (h : Awaits encodes unread events reader) :
    Awaits encodes unread events reader.shift ∧ reader.shift.reads = reader.reads := by
  unfold EventReader.shift
  split
  case isTrue => exact ⟨⟨rfl, Nat.zero_le _, h.encoded⟩, rfl⟩
  case isFalse => exact ⟨h, rfl⟩

/-- Replacing the bytes that are not consumed by as many. -/
theorem drop_take_append {bytes decoded : List Byte} {consumed : ℕ} (h : consumed ≤ bytes.length) :
    (bytes.take consumed ++ decoded).drop consumed = decoded := by
  rw [List.drop_append_of_le_length (by rw [List.length_take]; omega), List.drop_take, Nat.sub_self,
    List.take_zero, List.nil_append]

/-- What a failed decoding leaves, shifted and with what is read next. -/
theorem Awaits.failed (h : Awaits encodes unread events reader) (decoded : List Byte)
    (hlength : decoded.length = (reader.buff1.drop reader.consumed).length)
    (hencoded : Encoded encodes events (decoded ++ (bytesOf reader.reads ++ unread))) :
    Awaits encodes unread events
        ({ reader with buff1 := reader.buff1.take reader.consumed ++ decoded } : EventReader Byte).shift.read ∧
      ({ reader with buff1 := reader.buff1.take reader.consumed ++ decoded } : EventReader Byte).shift.read.reads =
        reader.reads.tail := by
  have hsame : (reader.buff1.take reader.consumed ++ decoded).length = reader.buff1.length := by
    rw [List.length_append, hlength, ← List.length_append, List.take_append_drop]
  have hdecoded : Awaits encodes unread events
      ({ reader with buff1 := reader.buff1.take reader.consumed ++ decoded } : EventReader Byte) :=
    { valid := h.valid.trans hsame.symm
      consumed := hsame ▸ h.consumed
      encoded := by
        dsimp only
        rw [drop_take_append h.consumed]
        exact hencoded }
  obtain ⟨hshifted, hreads⟩ := hdecoded.shift
  obtain ⟨hread, hreads'⟩ := hshifted.read
  exact ⟨hread, hreads'.trans (congrArg List.tail hreads)⟩

/-- A call returns the first event that has not been returned; or none, if bytes of it are missing or there
    is no such event. -/
theorem Awaits.next (hlawful : abomonation.Lawful encodes) (h : Awaits encodes unread events reader) :
    (∃ event rest after, events = event :: rest ∧ reader.next abomonation = some (some event, after) ∧
      Awaits encodes unread rest after ∧ after.reads = reader.reads) ∨
    ∃ after, reader.next abomonation = some (none, after) ∧ Awaits encodes unread events after ∧
      after.reads = reader.reads.tail ∧ (bytesOf reader.reads ++ unread = [] → events = []) := by
  have hnot : ¬ reader.buff1.length < reader.consumed := not_lt.mpr h.consumed
  unfold EventReader.next
  rw [if_neg hnot]
  rcases h.encoded.split with ⟨rfl, hpending, hlater⟩ | ⟨event, rest, bytes, more, rfl, hpending, hevent, hrest⟩ |
    ⟨event, rest, missing, more, rfl, hlater, hmissing, hevent, hrest⟩
  · -- nothing is there, and nothing follows
    right
    have hdecode : abomonation.decode (reader.buff1.drop reader.consumed) = (none, []) := by
      rw [hpending]
      exact Prod.ext (decode_nil hlawful) (List.length_eq_zero_iff.mp (hlawful.in_place []))
    obtain ⟨hafter, hreads⟩ := h.failed [] (by rw [hpending]) (by
      rw [hlater]
      exact .nil)
    rw [hdecode]
    exact ⟨_, rfl, hafter, hreads, fun _ => rfl⟩
  · -- all bytes of the event are there: they are decoded twice
    left
    obtain ⟨once, honce, hagain⟩ := hlawful.complete event bytes more hevent
    obtain ⟨twice, htwice, -⟩ := hlawful.complete event once more hagain
    have hlength : (twice ++ more).length = (bytes ++ more).length := by
      have hfirst := hlawful.in_place (bytes ++ more)
      have hsecond := hlawful.in_place (once ++ more)
      rw [honce] at hfirst
      rw [htwice] at hsecond
      exact hsecond.trans hfirst
    have hsize : reader.consumed + (bytes ++ more).length = reader.buff1.length := by
      rw [← hpending, List.length_drop]
      exact Nat.add_sub_cancel' h.consumed
    rw [List.length_append] at hsize hlength
    rw [hpending, honce]
    dsimp only
    rw [if_pos Option.isSome_some, htwice]
    dsimp only
    rw [if_neg (by rw [h.valid]; omega)]
    have htaken : (reader.buff1.take reader.consumed ++ twice).length = reader.valid - more.length := by
      rw [List.length_append, List.length_take, h.valid]
      rw [List.length_append] at hlength
      omega
    refine ⟨event, rest, _, rfl, rfl, ⟨?_, ?_, ?_⟩, rfl⟩
    · dsimp only
      rw [← List.append_assoc, List.length_append, htaken, h.valid]
      omega
    · dsimp only
      rw [← List.append_assoc, List.length_append, htaken]
      exact Nat.le_add_right _ _
    · dsimp only
      rw [← List.append_assoc (reader.buff1.take reader.consumed), List.drop_left' htaken]
      exact hrest
  · -- some bytes are missing: what is there is kept
    right
    obtain ⟨decoded, hnone, hagain⟩ := hlawful.incomplete event _ missing hevent hmissing
    have hinplace := hlawful.in_place (reader.buff1.drop reader.consumed)
    rw [hnone] at hinplace
    obtain ⟨hafter, hreads⟩ := h.failed decoded hinplace (by
      rw [hlater, ← List.append_assoc]
      exact .cons hagain hrest)
    rw [hnone]
    refine ⟨_, rfl, hafter, hreads, fun hempty => ?_⟩
    rw [hlater] at hempty
    exact absurd (List.append_eq_nil_iff.mp hempty).1 hmissing

/-- Successive calls return the events in order, and leave the other ones. -/
theorem Awaits.results (hlawful : abomonation.Lawful encodes) (h : Awaits encodes unread events reader) (calls : ℕ) :
    ∃ results last, reader.results abomonation calls = some (results, last) ∧
      ∃ left used, events = results.filterMap id ++ left ∧ reader.reads = used ++ last.reads ∧
        Awaits encodes unread left last := by
  induction calls generalizing reader events with
  | zero => exact ⟨[], reader, rfl, events, [], rfl, rfl, h⟩
  | succ calls ih =>
    unfold EventReader.results
    rcases h.next hlawful with ⟨event, rest, after, rfl, hnext, hafter, hsame⟩ | ⟨after, hnext, hafter, htail, -⟩
    · obtain ⟨results, last, hresults, left, used, rfl, hused, hlast⟩ := ih hafter
      rw [hnext, Option.bind_eq_bind, Option.bind_some]
      dsimp only
      rw [hresults]
      exact ⟨_, last, rfl, left, used, rfl, hsame ▸ hused, hlast⟩
    · obtain ⟨results, last, hresults, left, used, rfl, hused, hlast⟩ := ih hafter
      rw [hnext, Option.bind_eq_bind, Option.bind_some]
      dsimp only
      rw [hresults]
      refine ⟨_, last, rfl, left, reader.reads.take 1 ++ used, rfl, ?_, hlast⟩
      rw [List.append_assoc, ← hused, htail, ← List.drop_one, List.take_append_drop]

/-- However the bytes of the written events arrive, the calls return these events in order, each once; and
    if a call returns none when all bytes have been read before it, all events have been returned. -/
theorem reads_in_order (hlawful : abomonation.Lawful encodes) (events : List E)
    (reads : List (Option (List Byte))) (unread : List Byte)
    (hstream : bytesOf reads ++ unread = EventWriter.written abomonation events) (calls : ℕ) :
    ∃ results last, (new reads).results abomonation calls = some (results, last) ∧
      results.filterMap id <+: events ∧
      ∃ used, reads = used ++ last.reads ∧
        (bytesOf used = EventWriter.written abomonation events →
          ∀ after, last.next abomonation = some (none, after) → results.filterMap id = events) := by
  have hstart : Awaits encodes unread events (new reads) := by
    refine ⟨rfl, Nat.zero_le _, ?_⟩
    change Encoded encodes events ([] ++ (bytesOf reads ++ unread))
    rw [List.nil_append, hstream, EventWriter.written_eq]
    exact encoded_written hlawful events
  obtain ⟨results, last, hresults, left, used, hevents, hused, hlast⟩ := hstart.results hlawful calls
  refine ⟨results, last, hresults, ⟨left, hevents.symm⟩, used, hused, fun hall after hnone => ?_⟩
  replace hused : reads = used ++ last.reads := hused
  have hempty : bytesOf last.reads ++ unread = [] := by
    rw [hused, bytesOf_append, ← hall, List.append_assoc] at hstream
    exact List.append_right_eq_self.mp hstream
  rcases hlast.next hlawful with ⟨event, rest, after', -, hsome, -⟩ | ⟨_, -, -, -, hleft⟩
  · rw [hnone] at hsome
    cases hsome
  · rw [hevents, hleft hempty, List.append_nil]

/-- Two bytes for an event: a place for a pointer, which decoding writes to, and a value. -/
def pointed : Abomonation ℕ ℕ where
  encode event := [0, event]
  decode bytes :=
    match bytes with
    | _ :: event :: rest => (some (event, rest), 1 :: event :: rest)
    | [_] => (none, [1])
    | [] => (none, [])

theorem pointed_lawful : pointed.Lawful fun event bytes => ∃ pointer, bytes = [pointer, event] where
  encode event := ⟨0, rfl⟩
  nonempty event := List.cons_ne_nil _ _
  in_place bytes :=
    match bytes with
    | _ :: _ :: _ => rfl
    | [_] => rfl
    | [] => rfl
  complete := by
    rintro event _ rest ⟨pointer, rfl⟩
    exact ⟨[1, event], rfl, 1, rfl⟩
  incomplete := by
    rintro event bytes rest ⟨pointer, heq⟩ hrest
    match bytes with
    | [] => exact ⟨[], rfl, pointer, heq⟩
    | [first] =>
      obtain ⟨rfl, rfl⟩ : first = pointer ∧ rest = [event] := by simpa using heq
      exact ⟨[1], rfl, 1, rfl⟩
    | first :: second :: more =>
      obtain ⟨-, -, -, rfl⟩ : first = pointer ∧ second = event ∧ more = [] ∧ rest = [] := by simpa using heq
      exact absurd rfl hrest

/-- Two events whose bytes arrive in three pieces, with an error and an empty piece between them. -/
theorem reads_in_order_example : ∃ results last,
    (new [some [0], none, some [7, 0], some [], some [8]]).results pointed 8 = some (results, last) ∧
      results = [none, none, none, some 7, none, none, some 8, none] ∧ results.filterMap id <+: [7, 8] := by
  obtain ⟨results, last, hresults, hprefix, -⟩ := reads_in_order pointed_lawful [7, 8]
    [some [0], none, some [7, 0], some [], some [8]] [] (by decide) 8
  refine ⟨results, last, hresults, ?_, hprefix⟩
  have heval : ((new [some [0], none, some [7, 0], some [], some [8]]).results pointed 8).map Prod.fst =
      some [none, none, none, some 7, none, none, some 8, none] := by decide
  rw [hresults] at heval
  exact Option.some.inj heval

end EventReader

end Timely
