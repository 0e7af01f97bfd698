/-
  Timely/Pushers.lean
  ===================
  **Buffering and counting what an operator sends**
  (`timely/src/dataflow/channels/pushers/buffer.rs` and `counter.rs`).

  Records are given to a session at a time, collected in a buffer, and pushed as
  messages when the buffer is full, the time changes or the output ceases.  A
  counter in front of the channel counts the records of each message.
-/
import Timely.ChangeBatch

set_option linter.unusedSectionVars false

namespace Timely

open Library

/-- A message: records at a time. -/
structure Message (T D : Type) where
  time : T
  data : List D

/-- Default buffer size. -/
def default_length : ℕ := 1024

namespace Message

variable {T D : Type}

/-- The records of a message, each with its time. -/
def records (message : Message T D) : List (T × D) := message.data.map fun item => (message.time, item)

end Message

/-! ### Counting -/

/-- What has been pushed at the channel, and the counts that wait to be reported. -/
structure Counter (T D : Type) [Ord T] where
  pushee : List (Option (Message T D))
  produced : ChangeBatch T

variable {T D : Type} [PartialOrder T] [DecidableEq T] [Ord T] [LinearExtension T]

namespace Counter

def new : Counter T D := ⟨[], ChangeBatch.new⟩

/-- Push a message, or `none` to flush, which only propagates if there are counts to report. -/
def push (counter : Counter T D) : Option (Message T D) → Counter T D
  | some message =>
    { pushee := counter.pushee ++ [some message]
      produced := counter.produced.update message.time message.data.length }
  | none =>
    { pushee := if counter.produced.is_empty.1 then counter.pushee else counter.pushee ++ [none]
      produced := counter.produced.is_empty.2 }

/-- All records pushed, with their times. -/
def delivered (counter : Counter T D) : List (T × D) :=
  (counter.pushee.filterMap id).flatMap Message.records

@[simp] theorem delivered_new : (new : Counter T D).delivered = [] := rfl

@[simp] theorem delivered_push_some (counter : Counter T D) (message : Message T D) :
    (counter.push (some message)).delivered = counter.delivered ++ message.records := by
  simp [push, delivered]

@[simp] theorem delivered_push_none (counter : Counter T D) :
    (counter.push none).delivered = counter.delivered := by
  unfold delivered push
  dsimp only
  split <;> simp

end Counter

/-! ### Buffering -/

/-- Records to send at the currently open time.  Nothing is buffered while no time is open. -/
structure Buffer (T D : Type) [Ord T] where
  time : Option T
  buffer : List D
  capacity : ℕ
  pusher : Counter T D
  opened : time = none → buffer = []

/-- A buffer with an open time. -/
structure Session (T D : Type) [Ord T] where
  buffer : Buffer T D
  is_open : buffer.time ≠ none

namespace Buffer

def new (pusher : Counter T D) : Buffer T D where
  time := none
  buffer := []
  capacity := default_length
  pusher := pusher
  opened _ := rfl

/-- Push what is buffered as one message. -/
def flush (buffer : Buffer T D) : Buffer T D :=
  match buffer.time with
  | none => buffer
  | some time =>
    if buffer.buffer.isEmpty then buffer
    else
      { buffer with
        buffer := []
        pusher := buffer.pusher.push (some ⟨time, buffer.buffer⟩)
        opened := fun _ => rfl }

@[simp] theorem time_flush (buffer : Buffer T D) : buffer.flush.time = buffer.time := by
  unfold flush
  split
  · rfl
  · split <;> rfl

/-- Sets the open time. -/
def open_at (buffer : Buffer T D) (time : T) : Buffer T D :=
  { buffer with time := some time, opened := fun h => absurd h (Option.some_ne_none time) }

/-- Returns a session, which accepts data to send at the associated time. -/
def session (buffer : Buffer T D) (time : T) : Session T D where
  buffer :=
    (if buffer.time.any fun open_time => open_time ≠ time then buffer.flush else buffer).open_at time
  is_open := Option.some_ne_none time

/-- Flushes all data and pushes a `none`. -/
def cease (buffer : Buffer T D) : Buffer T D :=
  { buffer.flush with pusher := buffer.flush.pusher.push none }

end Buffer

namespace Session

/-- Provides one record at the time of the session. -/
def give (session : Session T D) (item : D) : Session T D :=
  let pushed : Buffer T D :=
    { session.buffer with
      buffer := session.buffer.buffer ++ [item]
      opened := fun h => absurd h session.is_open }
  if pushed.buffer.length = pushed.capacity then
    ⟨pushed.flush, by rw [Buffer.time_flush]; exact session.is_open⟩
  else ⟨pushed, session.is_open⟩

/-- Provides an iterator of records at the time of the session. -/
def give_iterator (session : Session T D) (items : List D) : Session T D := items.foldl give session

/-- Gives an entire message at the time of the session, after what is buffered. -/
def give_vec (session : Session T D) (message : List D) : Session T D :=
  if 0 < message.length then
    let time := session.buffer.time.get (Option.isSome_iff_ne_none.mpr session.is_open)
    let flushed :=
      if session.buffer.buffer.isEmpty then session.buffer else session.buffer.flush
    ⟨{ flushed with pusher := flushed.pusher.push (some ⟨time, message⟩) }, by
      dsimp only [flushed]
      split
      · exact session.is_open
      · rw [Buffer.time_flush]
        exact session.is_open⟩
  else session

end Session

/-! ### Records are sent in the order they are given -/

namespace Buffer

/-- The records that wait for a flush, with their time. -/
def pending (buffer : Buffer T D) : List (T × D) :=
  match buffer.time with
  | none => []
  | some time => buffer.buffer.map fun item => (time, item)

/-- All records given so far. -/
def given (buffer : Buffer T D) : List (T × D) := buffer.pusher.delivered ++ buffer.pending

@[simp] theorem given_new (pusher : Counter T D) : (new pusher).given = pusher.delivered := by
  simp [given, pending, new]

theorem flush_spec (buffer : Buffer T D) :
    buffer.flush.buffer = [] ∧ buffer.flush.pusher.delivered = buffer.given := by
  obtain ⟨time, items, capacity, pusher, opened⟩ := buffer
  cases time with
  | none => exact ⟨opened rfl, (List.append_nil _).symm⟩
  | some time =>
    simp only [flush, given, pending]
    split
    case isTrue hempty =>
      obtain rfl : items = [] := List.isEmpty_iff.mp hempty
      exact ⟨rfl, (List.append_nil _).symm⟩
    case isFalse => exact ⟨rfl, Counter.delivered_push_some _ _⟩

theorem pending_eq_nil {buffer : Buffer T D} (h : buffer.buffer = []) : buffer.pending = [] := by
  unfold pending
  split
  · rfl
  · rw [h, List.map_nil]

@[simp] theorem given_flush (buffer : Buffer T D) : buffer.flush.given = buffer.given := by
  unfold given
  rw [pending_eq_nil buffer.flush_spec.1, List.append_nil]
  exact buffer.flush_spec.2

theorem given_open_at {buffer : Buffer T D} {time : T}
    (h : buffer.buffer = [] ∨ buffer.time = some time ∨ buffer.time = none) :
    (buffer.open_at time).given = buffer.given := by
  have hnothing : buffer.buffer = [] → (buffer.open_at time).pending = buffer.pending := by
    intro hempty
    have hopened : (buffer.open_at time).pending = [] := pending_eq_nil hempty
    exact hopened.trans (pending_eq_nil hempty).symm
  refine congrArg (buffer.pusher.delivered ++ ·) ?_
  rcases h with hempty | hsame | hclosed
  · exact hnothing hempty
  · simp [pending, open_at, hsame]
  · exact hnothing (buffer.opened hclosed)

/-- Opening a session sends nothing new. -/
@[simp] theorem given_session (buffer : Buffer T D) (time : T) :
    (buffer.session time).buffer.given = buffer.given := by
  unfold session
  dsimp only
  split
  case isTrue => exact (given_open_at (Or.inl buffer.flush_spec.1)).trans buffer.given_flush
  case isFalse hsame =>
    apply given_open_at
    cases htime : buffer.time with
    | none => exact Or.inr (Or.inr rfl)
    | some open_time =>
      rw [htime] at hsame
      simp only [Option.any_some, ne_eq, decide_not, Bool.not_eq_true, Bool.not_eq_false',
        decide_eq_true_eq] at hsame
      exact Or.inr (Or.inl (congrArg some hsame))

@[simp] theorem time_session (buffer : Buffer T D) (time : T) :
    (buffer.session time).buffer.time = some time := rfl

/-- When an output ceases, all records given have been pushed. -/
theorem cease_spec (buffer : Buffer T D) :
    buffer.cease.given = buffer.given ∧ buffer.cease.pusher.delivered = buffer.given := by
  have hdelivered : buffer.cease.pusher.delivered = buffer.given :=
    (Counter.delivered_push_none _).trans buffer.flush_spec.2
  refine ⟨?_, hdelivered⟩
  unfold given
  rw [hdelivered, pending_eq_nil (show buffer.cease.buffer = [] from buffer.flush_spec.1),
    List.append_nil]
  rfl

end Buffer

namespace Session

theorem give_spec {session : Session T D} {time : T} (htime : session.buffer.time = some time) (item : D) :
    (session.give item).buffer.time = some time ∧
      (session.give item).buffer.given = session.buffer.given ++ [(time, item)] := by
  have hpushed : ∀ opened, ({ session.buffer with
      buffer := session.buffer.buffer ++ [item], opened := opened } : Buffer T D).given =
        session.buffer.given ++ [(time, item)] := by
    intro opened
    simp [Buffer.given, Buffer.pending, htime]
  unfold give
  dsimp only
  split
  · refine ⟨?_, ?_⟩
    · rw [Buffer.time_flush]
      exact htime
    · rw [Buffer.given_flush]
      exact hpushed _
  · exact ⟨htime, hpushed _⟩

/-- The records given to a session come after all that were given before. -/
theorem give_iterator_spec {session : Session T D} {time : T} (htime : session.buffer.time = some time)
    (items : List D) :
    (session.give_iterator items).buffer.given =
      session.buffer.given ++ items.map fun item => (time, item) := by
  unfold give_iterator
  induction items generalizing session with
  | nil => simp
  | cons item items ih =>
    obtain ⟨hsame, hgiven⟩ := give_spec htime item
    rw [List.foldl_cons, ih hsame, hgiven, List.append_assoc]
    rfl

end Session

end Timely
