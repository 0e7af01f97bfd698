/-
  Timely/Channels.lean
  ====================
  **Pushing messages, and getting buffers back**
  (`timely/src/dataflow/channels/mod.rs`).

  What is pushed at a pusher it may take, or leave for the sender, who reuses the
  buffer.  A pusher is any state with any such behaviour here.  Pushers stand in
  front of each other; what one of them makes of the records pushed at it is
  stated relative to the next.
-/
import Timely.Pushers

set_option linter.unusedSectionVars false

namespace Timely

namespace Channels

variable {P T D : Type}

/-- A vector: its items, and for how many of them there is room. -/
structure Vec (D : Type) where
  data : List D
  capacity : ℕ

namespace Vec

/-- Appends items.  A vector without room for them grows. -/
def extend (vec : Vec D) (items : List D) : Vec D :=
  ⟨vec.data ++ items, max vec.capacity (vec.data.length + items.length)⟩

def push (vec : Vec D) (item : D) : Vec D := vec.extend [item]

def clear (vec : Vec D) : Vec D := ⟨[], vec.capacity⟩

end Vec

/-- A message on its way.  If it is `typed` its vector can be taken from it. -/
structure Bundle (T D : Type) where
  time : T
  data : Vec D
  typed : Bool

def Bundle.message (bundle : Bundle T D) : Message T D := ⟨bundle.time, bundle.data.data⟩

/-- The records of a bundle, each with its time. -/
def Bundle.records (bundle : Bundle T D) : List (T × D) := bundle.message.records

/-- Pushing a message, or `none` to flush: what becomes of the pusher, and what it leaves. -/
class Push (P : Type) (T D : outParam Type) where
  push : P → Option (Bundle T D) → P × Option (Bundle T D)

/-- How much room there is in a new vector.  The allocator may give more than it is asked for,
    and may take anything into account. -/
class Allocator (P : Type) where
  capacity : P → ℕ → ℕ
  positive : ∀ (pusher : P) {n : ℕ}, 0 < n → 0 < capacity pusher n

/-- An allocator that gives what it is asked for. -/
@[reducible] def Allocator.exact (P : Type) : Allocator P := ⟨fun _ n => n, fun _ _ h => h⟩

def with_capacity [Allocator P] (pusher : P) (n : ℕ) : Vec D := ⟨[], Allocator.capacity pusher n⟩

/-- Forms a message and pushes it.  The vector that is left is empty: it is the one of the message,
    if that is handed back typed, or a new one. -/
def push_at [Push P T D] [Allocator P] (buffer : Vec D) (time : T) (pusher : P) : Vec D × P :=
  let pushed := Push.push pusher (some ⟨time, buffer, true⟩)
  let returned : Vec D :=
    match pushed.2 with
    | some bundle => if bundle.typed then bundle.data.clear else ⟨[], 0⟩
    | none => ⟨[], 0⟩
  (if returned.capacity ≠ default_length then with_capacity pushed.1 default_length else returned,
    pushed.1)

/-- Whatever is handed back, the vector that is left is empty and has room. -/
theorem push_at_left [Push P T D] [Allocator P] (buffer : Vec D) (time : T) (pusher : P) :
    (push_at buffer time pusher).1.data = [] ∧ 0 < (push_at buffer time pusher).1.capacity := by
  unfold push_at
  dsimp only
  split_ifs with hcapacity
  · exact ⟨rfl, Allocator.positive _ (by decide)⟩
  · rw [not_not.mp hcapacity]
    refine ⟨?_, by decide⟩
    split
    · split
      · rfl
      · rfl
    · rfl

/-! ### Accounts of what has been pushed -/

/-- A relation between pushers and the records that have been pushed at them. -/
structure Accounts [Push P T D] (holds : P → List (T × D) → Prop) : Prop where
  push_some : ∀ {pusher records} (bundle : Bundle T D), holds pusher records →
    holds (Push.push pusher (some bundle)).1 (records ++ bundle.records)
  push_none : ∀ {pusher records}, holds pusher records → holds (Push.push pusher none).1 records

theorem Accounts.push_at [Push P T D] [Allocator P] {holds : P → List (T × D) → Prop} (h : Accounts holds)
    {pusher : P} {records : List (T × D)} (hholds : holds pusher records) (buffer : Vec D) (time : T) :
    holds (push_at buffer time pusher).2 (records ++ buffer.data.map fun item => (time, item)) :=
  h.push_some ⟨time, buffer, true⟩ hholds

/-- Pushes one message after the other. -/
def push_all [Push P T D] (pusher : P) (messages : List (Option (Bundle T D))) : P :=
  messages.foldl (fun pusher message => (Push.push pusher message).1) pusher

theorem Accounts.push_all [Push P T D] {holds : P → List (T × D) → Prop} (h : Accounts holds) {pusher : P}
    {records : List (T × D)} (hholds : holds pusher records) (messages : List (Option (Bundle T D))) :
    holds (push_all pusher messages) (records ++ (messages.filterMap id).flatMap Bundle.records) := by
  induction messages generalizing pusher records with
  | nil => rwa [List.filterMap_nil, List.flatMap_nil, List.append_nil]
  | cons message messages ih =>
    cases message with
    | none => exact ih (h.push_none hholds)
    | some bundle =>
      have hrest := ih (h.push_some bundle hholds)
      rwa [List.append_assoc] at hrest

/-- A pusher, with what has been pushed at it. -/
structure Logged (P T D : Type) where
  pusher : P
  log : List (Option (Message T D))

namespace Logged

variable [Push P T D]

def new (pusher : P) : Logged P T D := ⟨pusher, []⟩

instance : Push (Logged P T D) T D where
  push logged message :=
    (⟨(Push.push logged.pusher message).1, logged.log ++ [message.map Bundle.message]⟩,
      (Push.push logged.pusher message).2)

/-- The records that have been received, in order, each with the time of its message. -/
def records (logged : Logged P T D) : List (T × D) := (logged.log.filterMap id).flatMap Message.records

theorem log_push (logged : Logged P T D) (message : Option (Bundle T D)) :
    (Push.push logged message).1.log = logged.log ++ [message.map Bundle.message] := rfl

/-- What has been received is what has been pushed. -/
theorem accounts : Accounts fun (logged : Logged P T D) records => logged.records = records where
  push_some := by
    rintro logged _ bundle rfl
    simp [records, log_push, Bundle.records]
  push_none := by
    rintro logged _ rfl
    simp [records, log_push]

end Logged

/-- A pusher that keeps what it gets, or one that hands it back. -/
inductive Recipient (T D : Type)
  | keeps
  | hands_back

instance : Push (Recipient T D) T D where
  push recipient message :=
    match recipient with
    | .keeps => (.keeps, none)
    | .hands_back => (.hands_back, message)

instance : Allocator (Logged (Recipient T D) T D) := Allocator.exact _

/-! ### A buffer in front of a pusher -/

/-- Records that wait to be pushed.  Their time is kept elsewhere. -/
structure Outlet (P D : Type) where
  buffer : Vec D
  pusher : P

namespace Outlet

variable [Push P T D] [Allocator P]

/-- Pushes what is buffered, at the open time. -/
def flush (outlet : Outlet P D) (time : Option T) : Outlet P D :=
  if outlet.buffer.data.isEmpty then outlet
  else
    match time with
    | none => outlet
    | some time =>
      let pushed := push_at outlet.buffer time outlet.pusher
      ⟨pushed.1, pushed.2⟩

/-- Buffers a record, and flushes if the buffer is full. -/
def give (outlet : Outlet P D) (time : Option T) (data : D) : Outlet P D :=
  let pushed : Outlet P D := ⟨outlet.buffer.push data, outlet.pusher⟩
  if pushed.buffer.data.length = pushed.buffer.capacity then pushed.flush time else pushed

theorem flush_none (outlet : Outlet P D) : outlet.flush (none : Option T) = outlet := by
  rw [flush]
  split <;> rfl

/-- The records that wait for a flush, with their time. -/
def pending (outlet : Outlet P D) (time : Option T) : List (T × D) :=
  match time with
  | none => []
  | some time => outlet.buffer.data.map fun item => (time, item)

/-- These records have been given: the pusher holds some, the others are pending. -/
def Given (holds : P → List (T × D) → Prop) (time : Option T) (outlet : Outlet P D)
    (records : List (T × D)) : Prop :=
  ∃ sent, holds outlet.pusher sent ∧ records = sent ++ outlet.pending time

theorem pending_eq_nil {outlet : Outlet P D} (h : outlet.buffer.data = []) (time : Option T) :
    outlet.pending time = [] := by
  cases time with
  | none => rfl
  | some time => rw [pending, h, List.map_nil]

variable {holds : P → List (T × D) → Prop} {outlet : Outlet P D} {records : List (T × D)}

theorem given_of_empty {buffer : Vec D} {pusher : P} (hempty : buffer.data = [])
    (hholds : holds pusher records) (time : Option T) : Given holds time ⟨buffer, pusher⟩ records :=
  ⟨records, hholds, by rw [pending_eq_nil hempty, List.append_nil]⟩

theorem Given.holds_of_empty {time : Option T} (hgiven : Given holds time outlet records)
    (hempty : outlet.buffer.data = []) : holds outlet.pusher records := by
  obtain ⟨sent, hholds, rfl⟩ := hgiven
  rwa [pending_eq_nil hempty, List.append_nil]

/-- A flush hands on all records that have been given, if there is a time for what is buffered. -/
theorem Given.flush {time : Option T} (hgiven : Given holds time outlet records) (h : Accounts holds)
    (hopened : time = none → outlet.buffer.data = []) :
    (outlet.flush time).buffer.data = [] ∧ holds (outlet.flush time).pusher records := by
  unfold Outlet.flush
  split
  case isTrue hempty =>
    have hempty := List.isEmpty_iff.mp hempty
    exact ⟨hempty, hgiven.holds_of_empty hempty⟩
  case isFalse =>
    cases time with
    | none => exact ⟨hopened rfl, hgiven.holds_of_empty (hopened rfl)⟩
    | some time =>
      obtain ⟨sent, hholds, rfl⟩ := hgiven
      exact ⟨(push_at_left outlet.buffer time outlet.pusher).1, h.push_at hholds outlet.buffer time⟩

theorem Given.give {time : T} (hgiven : Given holds (some time) outlet records) (h : Accounts holds)
    (data : D) : Given holds (some time) (outlet.give (some time) data) (records ++ [(time, data)]) := by
  obtain ⟨sent, hholds, rfl⟩ := hgiven
  have hpushed : Given holds (some time) ⟨outlet.buffer.push data, outlet.pusher⟩
      (sent ++ outlet.pending (some time) ++ [(time, data)]) := by
    refine ⟨sent, hholds, ?_⟩
    change _ = sent ++ (outlet.buffer.data ++ [data]).map _
    rw [List.map_append, List.append_assoc]
    rfl
  rw [Outlet.give]
  dsimp only
  split
  · obtain ⟨hempty, hflushed⟩ := hpushed.flush h fun hnone => absurd hnone (Option.some_ne_none time)
    exact given_of_empty hempty hflushed (some time)
  · exact hpushed

end Outlet

end Channels

end Timely
