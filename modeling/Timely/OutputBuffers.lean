/-
  Timely/OutputBuffers.lean
  =========================
  **The output of an operator: a buffer, a counter, and copies for all recipients**
  (`timely/src/dataflow/channels/pushers/buffer.rs`, `counter.rs` and `tee.rs`).

  Records given to sessions are buffered, counted when they are pushed, and
  copied for all recipients but the last, who gets the message itself.  Whatever
  the recipients do with the buffers, they all receive the records that were
  given, in order and at their times, and these are the records counted.
-/
import Timely.Channels
import Timely.Timestamp

set_option linter.unusedSectionVars false

namespace Timely

open Library

namespace Channels

variable {P T D : Type} [Push P T D]

/-! ### Copies for several recipients -/

/-- Forwards messages to a list of pushers; `buffer` is for the copies. -/
structure Tee (P D : Type) where
  buffer : Vec D
  pushers : List P

namespace Tee

variable [Allocator P]

def new (pushers : List P) : Tee P D := ⟨⟨[], default_length⟩, pushers⟩

/-- A copy of the message for every pusher but the last, and the message for the last one. -/
def forward (bundle : Bundle T D) : Vec D → List P → Tee P D × Option (Bundle T D)
  | buffer, [] => (⟨buffer, []⟩, some bundle)
  | buffer, [last] =>
    let pushed := Push.push last (some bundle)
    (⟨buffer, [pushed.1]⟩, pushed.2)
  | buffer, pusher :: next :: rest =>
    let copied := push_at (buffer.extend bundle.data.data) bundle.time pusher
    let forwarded := forward bundle copied.1 (next :: rest)
    (⟨forwarded.1.buffer, copied.2 :: forwarded.1.pushers⟩, forwarded.2)

instance : Push (Tee P D) T D where
  push tee message :=
    match message with
    | some bundle => forward bundle tee.buffer tee.pushers
    | none =>
      let pushed := tee.pushers.map fun pusher => Push.push pusher none
      (⟨tee.buffer, pushed.map Prod.fst⟩, pushed.getLast?.elim none Prod.snd)

/-- What each of so many pushers holds. -/
structure AllHold (holds : P → List (T × D) → Prop) (count : ℕ) (tee : Tee P D) (records : List (T × D)) :
    Prop where
  length : tee.pushers.length = count
  empty : tee.buffer.data = []
  all : ∀ pusher ∈ tee.pushers, holds pusher records

theorem allHold_forward {holds : P → List (T × D) → Prop} (h : Accounts holds) (bundle : Bundle T D)
    {records : List (T × D)} {buffer : Vec D} {pushers : List P} (hempty : buffer.data = [])
    (hholds : ∀ pusher ∈ pushers, holds pusher records) :
    AllHold holds pushers.length (forward bundle buffer pushers).1 (records ++ bundle.records) := by
  induction pushers generalizing buffer with
  | nil => exact ⟨rfl, hempty, fun _ hpusher => absurd hpusher List.not_mem_nil⟩
  | cons pusher pushers ih =>
    have hfirst := hholds pusher List.mem_cons_self
    cases pushers with
    | nil =>
      refine ⟨rfl, hempty, fun pushed hpushed => ?_⟩
      rw [List.mem_singleton.mp hpushed]
      exact h.push_some bundle hfirst
    | cons next rest =>
      -- the copy has the records of the message, as the buffer was empty
      have hcopy := h.push_at hfirst (buffer.extend bundle.data.data) bundle.time
      have hdata : (buffer.extend bundle.data.data).data = bundle.data.data := by
        change buffer.data ++ _ = _
        rw [hempty, List.nil_append]
      rw [hdata] at hcopy
      obtain ⟨hlength, hleft, hall⟩ :=
        ih (push_at_left (buffer.extend bundle.data.data) bundle.time pusher).1
          fun other hother => hholds other (List.mem_cons_of_mem _ hother)
      refine ⟨congrArg (· + 1) hlength, hleft, fun pushed hpushed => ?_⟩
      rcases List.mem_cons.mp hpushed with rfl | hrest
      · exact hcopy
      · exact hall pushed hrest

/-- All recipients hold what has been pushed at the tee. -/
theorem accounts {holds : P → List (T × D) → Prop} (h : Accounts holds) (count : ℕ) :
    Accounts (AllHold holds count) where
  push_some := by
    rintro tee records bundle ⟨rfl, hempty, hall⟩
    exact allHold_forward h bundle hempty hall
  push_none := by
    rintro tee records ⟨rfl, hempty, hall⟩
    refine ⟨?_, hempty, fun pushed hpushed => ?_⟩
    · change (List.map Prod.fst (List.map _ _)).length = _
      rw [List.length_map, List.length_map]
    · obtain ⟨_, hmem, rfl⟩ := List.mem_map.mp hpushed
      obtain ⟨pusher, hpusher, rfl⟩ := List.mem_map.mp hmem
      exact h.push_none (hall pusher hpusher)

end Tee

/-! ### Counting -/

/-- Counts the records pushed past. -/
structure Counter (P T : Type) [Ord T] where
  pushee : P
  produced : ChangeBatch T

variable [PartialOrder T] [DecidableEq T] [Ord T] [LinearExtension T]

namespace Counter

def new (pushee : P) : Counter P T := ⟨pushee, ChangeBatch.new⟩

instance : Push (Counter P T) T D where
  push counter message :=
    match message with
    | some bundle =>
      let pushed := Push.push counter.pushee (some bundle)
      (⟨pushed.1, counter.produced.update bundle.time bundle.data.data.length⟩, pushed.2)
    | none =>
      -- only propagate `none` if dirty
      if counter.produced.is_empty.1 then (⟨counter.pushee, counter.produced.is_empty.2⟩, none)
      else
        let pushed := Push.push counter.pushee (none : Option (Bundle T D))
        (⟨pushed.1, counter.produced.is_empty.2⟩, pushed.2)

/-- The number of records at a time. -/
def number (records : List (T × D)) (time : T) : ℤ := (records.filter fun record => record.1 = time).length

theorem number_append (records more : List (T × D)) (time : T) :
    number (records ++ more) time = number records time + number more time := by
  simp [number]

theorem number_records (bundle : Bundle T D) (time : T) :
    number bundle.records time = if bundle.time = time then (bundle.data.data.length : ℤ) else 0 := by
  have hrecords : bundle.records = bundle.data.data.map fun item => (bundle.time, item) := rfl
  rw [number, hrecords]
  by_cases htime : bundle.time = time
  · rw [if_pos htime, List.filter_eq_self.mpr, List.length_map]
    intro record hrecord
    obtain ⟨item, -, rfl⟩ := List.mem_map.mp hrecord
    exact decide_eq_true htime
  · rw [if_neg htime, List.filter_eq_nil_iff.mpr, List.length_nil, Nat.cast_zero]
    intro record hrecord
    obtain ⟨item, -, rfl⟩ := List.mem_map.mp hrecord
    simpa using htime

/-- The pushee holds the records, and each has been counted at its time. -/
structure Counted (holds : P → List (T × D) → Prop) (counter : Counter P T) (records : List (T × D)) :
    Prop where
  holds : holds counter.pushee records
  produced : ∀ time, counter.produced.value time = number records time

theorem accounts {holds : P → List (T × D) → Prop} (h : Accounts holds) : Accounts (Counted holds) where
  push_some := by
    rintro counter records bundle ⟨hholds, hproduced⟩
    refine ⟨h.push_some bundle hholds, fun time => ?_⟩
    rw [number_append, number_records, ← hproduced]
    exact ChangeBatch.value_update _ _ _ _
  push_none := by
    rintro counter records ⟨hholds, hproduced⟩
    have hcompacted : ∀ time, counter.produced.is_empty.2.value time = number records time := by
      intro time
      rw [ChangeBatch.value_is_empty, hproduced]
    by_cases hempty : counter.produced.is_empty.1 = true
    · have hpush : (Push.push counter (none : Option (Bundle T D))).1
          = ⟨counter.pushee, counter.produced.is_empty.2⟩ := congrArg Prod.fst (if_pos hempty)
      rw [hpush]
      exact ⟨hholds, hcompacted⟩
    · have hpush : (Push.push counter (none : Option (Bundle T D))).1
          = ⟨(Push.push counter.pushee (none : Option (Bundle T D))).1, counter.produced.is_empty.2⟩ :=
        congrArg Prod.fst (if_neg hempty)
      rw [hpush]
      exact ⟨h.push_none hholds, hcompacted⟩

end Counter

/-! ### Buffering -/

variable [Allocator P]

/-- Buffers data sent at the same time.  Nothing is buffered before a time has been opened. -/
structure Buffer (P T D : Type) extends Outlet P D where
  time : Option T
  opened : time = none → toOutlet.buffer.data = []

/-- A buffer that has a time, for sending at that time. -/
structure Session (P T D : Type) where
  buffer : Buffer P T D
  is_open : buffer.time ≠ none

namespace Buffer

/-- Creates a new buffer. -/
def new (pusher : P) : Buffer P T D where
  buffer := with_capacity pusher default_length
  pusher := pusher
  time := none
  opened _ := rfl

/-- Pushes what is buffered. -/
def flush (buffer : Buffer P T D) : Buffer P T D where
  toOutlet := buffer.toOutlet.flush buffer.time
  time := buffer.time
  opened h := by
    rw [h, Outlet.flush_none]
    exact buffer.opened h

/-- Returns a session, which accepts data to send at the time. -/
def session (buffer : Buffer P T D) (time : T) : Session P T D :=
  let flushed := if buffer.time.any fun open_time => open_time ≠ time then buffer.flush else buffer
  ⟨⟨flushed.toOutlet, some time, fun h => absurd h (Option.some_ne_none time)⟩, Option.some_ne_none time⟩

/-- Flushes all data and pushes a `none`. -/
def cease (buffer : Buffer P T D) : Buffer P T D :=
  { buffer.flush with pusher := (Push.push buffer.flush.pusher (none : Option (Bundle T D))).1 }

end Buffer

namespace Session

/-- Provides one record at the time of the session. -/
def give (session : Session P T D) (data : D) : Session P T D where
  buffer :=
    { toOutlet := session.buffer.toOutlet.give session.buffer.time data
      time := session.buffer.time
      opened := fun h => absurd h session.is_open }
  is_open := session.is_open

/-- Provides an iterator of records at the time of the session. -/
def give_iterator (session : Session P T D) (iter : List D) : Session P T D := iter.foldl give session

/-- Gives an entire message at the time of the session, after what is buffered.  The caller gets an
    empty vector back. -/
def give_vec (session : Session P T D) (message : Vec D) : Vec D × Session P T D :=
  if 0 < message.data.length then
    -- flush to ensure fifo-ness
    let flushed :=
      if session.buffer.buffer.data.isEmpty then session.buffer.toOutlet
      else session.buffer.toOutlet.flush session.buffer.time
    let time := session.buffer.time.get (Option.isSome_iff_ne_none.mpr session.is_open)
    let pushed := push_at message time flushed.pusher
    (pushed.1,
      ⟨⟨⟨flushed.buffer, pushed.2⟩, session.buffer.time, fun h => absurd h session.is_open⟩, session.is_open⟩)
  else (message, session)

end Session

/-- What is provided to a session. -/
inductive Provision (D : Type)
  | give (data : D)
  | give_iterator (iter : List D)
  | give_vec (message : Vec D)

/-- What is done with an output.  A session lasts until it is dropped, and only an autoflush
    session does something then. -/
inductive Call (T D : Type)
  | session (time : T) (provisions : List (Provision D))
  | autoflush_session (time : T) (provisions : List (Provision D))
  | cease

namespace Session

def provide (session : Session P T D) : Provision D → Session P T D
  | .give data => session.give data
  | .give_iterator iter => session.give_iterator iter
  | .give_vec message => (session.give_vec message).2

end Session

def Buffer.perform (buffer : Buffer P T D) : Call T D → Buffer P T D
  | .session time provisions => (provisions.foldl Session.provide (buffer.session time)).buffer
  | .autoflush_session time provisions =>
    (provisions.foldl Session.provide (buffer.session time)).buffer.cease
  | .cease => buffer.cease

/-- The items of a provision. -/
def Provision.items : Provision D → List D
  | .give data => [data]
  | .give_iterator iter => iter
  | .give_vec message => message.data

/-- The records given in a call. -/
def Call.given : Call T D → List (T × D)
  | .session time provisions | .autoflush_session time provisions =>
    (provisions.flatMap Provision.items).map fun item => (time, item)
  | .cease => []

/-! ### Nothing is lost, repeated or given another time -/

namespace Buffer

/-- These records have been given, and are pushed or pending. -/
def Given (holds : P → List (T × D) → Prop) (buffer : Buffer P T D) (records : List (T × D)) : Prop :=
  Outlet.Given holds buffer.time buffer.toOutlet records

variable {holds : P → List (T × D) → Prop} {buffer : Buffer P T D} {records : List (T × D)}

/-- Opening a session gives nothing. -/
theorem Given.session (hgiven : Given holds buffer records) (h : Accounts holds) (time : T) :
    Given holds (buffer.session time).buffer records := by
  obtain ⟨hempty, hholds⟩ := Outlet.Given.flush hgiven h buffer.opened
  by_cases hother : (buffer.time.any fun open_time => open_time ≠ time) = true
  · have houtlet : (buffer.session time).buffer.toOutlet = buffer.flush.toOutlet := by
      unfold Buffer.session
      dsimp only
      rw [if_pos hother]
    rw [Given, houtlet]
    exact Outlet.given_of_empty hempty hholds (some time)
  · have houtlet : (buffer.session time).buffer.toOutlet = buffer.toOutlet := by
      unfold Buffer.session
      dsimp only
      rw [if_neg hother]
    rw [Given, houtlet]
    -- what was pending had this time, or there was nothing
    cases htime : buffer.time with
    | none =>
      have hnothing := buffer.opened htime
      exact Outlet.given_of_empty hnothing (Outlet.Given.holds_of_empty hgiven hnothing) (some time)
    | some open_time =>
      rw [htime, Option.any_some, decide_eq_true_eq, not_not] at hother
      rw [Given, htime, hother] at hgiven
      exact hgiven

/-- When an output ceases all that has been given is pushed. -/
theorem Given.cease (hgiven : Given holds buffer records) (h : Accounts holds) :
    Given holds buffer.cease records ∧ holds buffer.cease.pusher records := by
  obtain ⟨hempty, hholds⟩ := Outlet.Given.flush hgiven h buffer.opened
  exact ⟨Outlet.given_of_empty hempty (h.push_none hholds) _, h.push_none hholds⟩

end Buffer

namespace Session

variable {holds : P → List (T × D) → Prop} {session : Session P T D} {records : List (T × D)} {time : T}

/-- The session is at this time, and these records have been given. -/
structure Adds (holds : P → List (T × D) → Prop) (time : T) (session : Session P T D)
    (records : List (T × D)) : Prop where
  given : session.buffer.Given holds records
  time : session.buffer.time = some time

theorem Adds.give (hsession : Adds holds time session records) (h : Accounts holds) (data : D) :
    Adds holds time (session.give data) (records ++ [(time, data)]) := by
  obtain ⟨hgiven, htime⟩ := hsession
  rw [Buffer.Given, htime] at hgiven
  refine ⟨?_, htime⟩
  change Outlet.Given holds session.buffer.time (session.buffer.toOutlet.give session.buffer.time data) _
  rw [htime]
  exact hgiven.give h data

theorem Adds.give_iterator (hsession : Adds holds time session records) (h : Accounts holds)
    (iter : List D) :
    Adds holds time (session.give_iterator iter) (records ++ iter.map fun item => (time, item)) := by
  induction iter generalizing session records with
  | nil => rwa [List.map_nil, List.append_nil]
  | cons data iter ih =>
    have hrest := ih (hsession.give h data)
    rwa [List.append_assoc] at hrest

theorem Adds.give_vec (hsession : Adds holds time session records) (h : Accounts holds) (message : Vec D) :
    Adds holds time (session.give_vec message).2 (records ++ message.data.map fun item => (time, item)) := by
  obtain ⟨hgiven, htime⟩ := hsession
  have hget : session.buffer.time.get (Option.isSome_iff_ne_none.mpr session.is_open) = time :=
    Option.get_of_eq_some _ htime
  -- with or without a flush nothing is buffered when the message is pushed
  have hflushed : (if session.buffer.buffer.data.isEmpty then session.buffer.toOutlet
        else session.buffer.toOutlet.flush session.buffer.time).buffer.data = []
      ∧ holds (if session.buffer.buffer.data.isEmpty then session.buffer.toOutlet
        else session.buffer.toOutlet.flush session.buffer.time).pusher records := by
    split
    case isTrue hbuffered =>
      have hbuffered := List.isEmpty_iff.mp hbuffered
      exact ⟨hbuffered, Outlet.Given.holds_of_empty hgiven hbuffered⟩
    case isFalse => exact Outlet.Given.flush hgiven h session.buffer.opened
  by_cases hlength : 0 < message.data.length
  · rw [Session.give_vec, if_pos hlength]
    dsimp only
    rw [hget]
    exact ⟨Outlet.given_of_empty hflushed.1 (h.push_at hflushed.2 message time) _, htime⟩
  · have hnil : message.data = [] := List.eq_nil_of_length_eq_zero (Nat.eq_zero_of_not_pos hlength)
    rw [Session.give_vec, if_neg hlength, hnil, List.map_nil, List.append_nil]
    exact ⟨hgiven, htime⟩

theorem Adds.provide (hsession : Adds holds time session records) (h : Accounts holds)
    (provision : Provision D) :
    Adds holds time (session.provide provision)
      (records ++ provision.items.map fun item => (time, item)) := by
  cases provision with
  | give data => exact hsession.give h data
  | give_iterator iter => exact hsession.give_iterator h iter
  | give_vec message => exact hsession.give_vec h message

theorem Adds.foldl_provide (hsession : Adds holds time session records) (h : Accounts holds)
    (provisions : List (Provision D)) :
    Adds holds time (provisions.foldl Session.provide session)
      (records ++ (provisions.flatMap Provision.items).map fun item => (time, item)) := by
  induction provisions generalizing session records with
  | nil => rwa [List.flatMap_nil, List.map_nil, List.append_nil]
  | cons provision provisions ih =>
    have hrest := ih (hsession.provide h provision)
    rwa [List.append_assoc, ← List.map_append, ← List.flatMap_cons] at hrest

end Session

namespace Buffer

variable {holds : P → List (T × D) → Prop} {buffer : Buffer P T D} {records : List (T × D)}

theorem Given.perform (hgiven : Given holds buffer records) (h : Accounts holds) (call : Call T D) :
    Given holds (buffer.perform call) (records ++ call.given) := by
  cases call with
  | session time provisions =>
    exact (Session.Adds.foldl_provide ⟨hgiven.session h time, rfl⟩ h provisions).given
  | autoflush_session time provisions =>
    exact ((Session.Adds.foldl_provide ⟨hgiven.session h time, rfl⟩ h provisions).given.cease h).1
  | cease =>
    rw [Call.given, List.append_nil]
    exact (hgiven.cease h).1

theorem Given.foldl_perform (hgiven : Given holds buffer records) (h : Accounts holds)
    (calls : List (Call T D)) :
    Given holds (calls.foldl Buffer.perform buffer) (records ++ calls.flatMap Call.given) := by
  induction calls generalizing buffer records with
  | nil => rwa [List.flatMap_nil, List.append_nil]
  | cons call calls ih =>
    have hrest := ih (hgiven.perform h call)
    rwa [List.append_assoc, ← List.flatMap_cons] at hrest

/-- An output with these recipients. -/
def output [Allocator (Logged P T D)] [Allocator (Counter (Tee (Logged P T D) D) T)] (recipients : List P) :
    Buffer (Counter (Tee (Logged P T D) D) T) T D :=
  new (Counter.new (Tee.new (recipients.map Logged.new)))

omit [Allocator P] in
/-- When an output ceases, all its recipients have received the records that have been given, in
    order and with the times they were given at, and these are the records that have been counted. -/
theorem cease_delivers [Allocator (Logged P T D)] [Allocator (Counter (Tee (Logged P T D) D) T)]
    (recipients : List P) (calls : List (Call T D)) :
    (calls.foldl perform (output recipients)).cease.pusher.pushee.pushers.length = recipients.length
    ∧ (∀ recipient ∈ (calls.foldl perform (output recipients)).cease.pusher.pushee.pushers,
      recipient.records = calls.flatMap Call.given)
    ∧ ∀ time, (calls.foldl perform (output recipients)).cease.pusher.produced.value time
      = Counter.number (calls.flatMap Call.given) time := by
  have haccounts := Counter.accounts (T := T)
    (Tee.accounts (Logged.accounts (P := P) (T := T) (D := D)) recipients.length)
  have hstart : Given (Counter.Counted (Tee.AllHold (fun (logged : Logged P T D) records =>
      logged.records = records) recipients.length)) (output recipients) [] := by
    refine Outlet.given_of_empty rfl ⟨⟨List.length_map _, rfl, fun pusher hpusher => ?_⟩, fun time => rfl⟩ none
    obtain ⟨recipient, -, rfl⟩ := List.mem_map.mp hpusher
    rfl
  obtain ⟨hall, hproduced⟩ := ((hstart.foldl_perform haccounts calls).cease haccounts).2
  exact ⟨hall.length, hall.all, hproduced⟩

end Buffer

instance : Allocator (Counter (Tee (Logged (Recipient T D) T D) D) T) := Allocator.exact _

/-- Two recipients, one of which hands buffers back. -/
def example_recipients : List (Recipient (Unsigned 64) ℕ) := [.keeps, .hands_back]

/-- Two sessions at different times, one of them with a message of its own. -/
def example_calls : List (Call (Unsigned 64) ℕ) :=
  [.session ⟨3, by decide⟩ [.give 5, .give_vec ⟨[6, 7], 2⟩], .session ⟨4, by decide⟩ [.give 8]]

/-- Both recipients get all four records, and three have been counted at the first time. -/
theorem Buffer.cease_delivers_example :
    (∀ recipient ∈ (example_calls.foldl Buffer.perform
        (Buffer.output example_recipients)).cease.pusher.pushee.pushers,
      recipient.records = [(⟨3, by decide⟩, 5), (⟨3, by decide⟩, 6), (⟨3, by decide⟩, 7), (⟨4, by decide⟩, 8)])
    ∧ (example_calls.foldl Buffer.perform
        (Buffer.output example_recipients)).cease.pusher.produced.value ⟨3, by decide⟩ = 3 :=
  ⟨(Buffer.cease_delivers example_recipients example_calls).2.1,
    (Buffer.cease_delivers example_recipients example_calls).2.2 ⟨3, by decide⟩⟩

end Channels

end Timely
