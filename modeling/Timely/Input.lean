/-
  Timely/Input.lean
  =================
  **Input handles** (`timely/src/dataflow/operators/input.rs`).

  A handle buffers records at its current time and pushes them at a counter for
  each stream it feeds.  Closing a time tells the counters to flush, but a
  counter forwards this only while there are counts to report, and the operator
  takes the counts when it is scheduled.  Records that an exchange pusher still
  holds then stay with the sender.
-/
import Timely.Exchange
import Timely.Timestamp
import Timely.Library.Run

set_option linter.unusedSectionVars false

namespace Timely

open Library

/-! ### Handles -/

/-- A stream that a handle feeds: the counter and the consumers behind it as they were when it
    was registered, and what the handle and the operator share and report. -/
structure Registered (T D : Type) [Ord T] where
  pusher : Counter T D
  tee : List (Exchange T D)
  progress : ChangeBatch T
  internal : ChangeBatch T
  produced : ChangeBatch T

/-- Introduces data into dataflow computations. -/
structure Handle (T D : Type) [Ord T] where
  pushers : List (Registered T D)
  buffer1 : List D
  now_at : T

variable {T D : Type} [PartialOrder T] [DecidableLE T] [DecidableEq T] [Ord T] [LinearExtension T]

namespace Registered

/-- The consumers: a counter forwards what it pushes at once. -/
def consumers (registered : Registered T D) : List (Exchange T D) :=
  registered.pusher.pushee.foldl Tee.push registered.tee

def push (message : Option (Message T D)) (registered : Registered T D) : Registered T D :=
  { registered with pusher := registered.pusher.push message }

def update_progress (time : T) (delta : ℤ) (registered : Registered T D) : Registered T D :=
  { registered with progress := registered.progress.update time delta }

/-- The operator reports closed times and messages sent since it was last asked. -/
def schedule (registered : Registered T D) : Registered T D :=
  let progress := registered.progress.drain_into registered.internal
  let messages := registered.pusher.produced.drain_into registered.produced
  { registered with
    pusher := { registered.pusher with produced := messages.1 }
    progress := progress.1
    internal := progress.2
    produced := messages.2 }

/-- The parent extracts what the operator has reported. -/
def extract (registered : Registered T D) : Registered T D :=
  { registered with
    internal := registered.internal.drain.2
    produced := registered.produced.drain.2 }

end Registered

namespace Handle

/-- Flushes the buffer at each of the destinations. -/
def flush (handle : Handle T D) : Handle T D :=
  { handle with
    pushers := handle.pushers.map (Registered.push (some ⟨handle.now_at, handle.buffer1⟩))
    buffer1 := [] }

def flush_pending (handle : Handle T D) : Handle T D :=
  if handle.buffer1.isEmpty then handle else handle.flush

/-- Closes the current epoch, flushing if needed, and updating the frontier. -/
def close_epoch (handle : Handle T D) : Handle T D :=
  { handle.flush_pending with
    pushers := handle.flush_pending.pushers.map fun registered =>
      (registered.push none).update_progress handle.now_at (-1) }

/-- Sends one record at the current epoch. -/
def send (handle : Handle T D) (data : D) : Handle T D :=
  let sent := { handle with buffer1 := handle.buffer1 ++ [data] }
  if sent.buffer1.length = default_length then sent.flush else sent

/-- Sends a batch of records at the current epoch, after those that are buffered. -/
def send_batch (handle : Handle T D) (buffer : List D) : Handle T D :=
  if buffer.isEmpty then handle
  else
    { handle.flush_pending with
      pushers := handle.flush_pending.pushers.map (Registered.push (some ⟨handle.now_at, buffer⟩)) }

/-- Advances the current epoch; `none` where this would rewind time. -/
def advance_to (handle : Handle T D) (next : T) : Option (Handle T D) :=
  if handle.now_at ≤ next then
    if handle.now_at = next then some handle
    else
      some
        { handle.close_epoch with
          pushers := handle.close_epoch.pushers.map (Registered.update_progress next 1)
          now_at := next }
  else none

end Handle

/-! ### Runs -/

/-- A handle and its operators.  A closed handle is dropped. -/
structure InputState (T D : Type) [Ord T] where
  handle : Handle T D
  closed : Bool

inductive InputEvent (T D : Type) where
  | send (data : D)
  | send_batch (buffer : List D)
  | advance_to (next : T)
  | close
  | schedule (index : ℕ)
  | extract (index : ℕ)

/-- The steps of a handle and its operators, in any order. -/
inductive InputStep : InputState T D → InputEvent T D → InputState T D → Prop
  | send {handle : Handle T D} (data : D) :
      InputStep ⟨handle, false⟩ (.send data) ⟨handle.send data, false⟩
  | send_batch {handle : Handle T D} (buffer : List D) :
      InputStep ⟨handle, false⟩ (.send_batch buffer) ⟨handle.send_batch buffer, false⟩
  | advance_to {handle after : Handle T D} {next : T} :
      handle.advance_to next = some after →
      InputStep ⟨handle, false⟩ (.advance_to next) ⟨after, false⟩
  | close {handle : Handle T D} : InputStep ⟨handle, false⟩ .close ⟨handle.close_epoch, true⟩
  | schedule {handle : Handle T D} {closed : Bool} (index : ℕ) :
      InputStep ⟨handle, closed⟩ (.schedule index)
        ⟨{ handle with pushers := handle.pushers.modify index Registered.schedule }, closed⟩
  | extract {handle : Handle T D} {closed : Bool} (index : ℕ) :
      InputStep ⟨handle, closed⟩ (.extract index)
        ⟨{ handle with pushers := handle.pushers.modify index Registered.extract }, closed⟩

/-- The records sent in a run that starts at a time. -/
def sent_records (now : T) : List (InputEvent T D) → List (T × D)
  | [] => []
  | .send data :: events => (now, data) :: sent_records now events
  | .send_batch buffer :: events => buffer.map (fun datum => (now, datum)) ++ sent_records now events
  | .advance_to next :: events => sent_records next events
  | .close :: events => sent_records now events
  | .schedule _ :: events => sent_records now events
  | .extract _ :: events => sent_records now events

/-- The time of the handle after a run that starts at a time. -/
def time_after (now : T) : List (InputEvent T D) → T
  | [] => now
  | .advance_to next :: events => time_after next events
  | .send _ :: events => time_after now events
  | .send_batch _ :: events => time_after now events
  | .close :: events => time_after now events
  | .schedule _ :: events => time_after now events
  | .extract _ :: events => time_after now events

theorem time_after_append (now : T) (events more : List (InputEvent T D)) :
    time_after now (events ++ more) = time_after (time_after now events) more := by
  induction events generalizing now with
  | nil => rfl
  | cons event events ih => cases event <;> exact ih _

theorem sent_records_append (now : T) (events more : List (InputEvent T D)) :
    sent_records now (events ++ more) =
      sent_records now events ++ sent_records (time_after now events) more := by
  induction events generalizing now with
  | nil => rfl
  | cons event events ih =>
    cases event with
    | send_batch buffer =>
      rw [List.cons_append, sent_records, ih, sent_records, List.append_assoc]
      rfl
    | send data => exact congrArg _ (ih now)
    | advance_to next => exact ih next
    | close => exact ih now
    | schedule index => exact ih now
    | extract index => exact ih now

/-! ### What has been pushed -/

namespace Registered

/-- The records pushed so far, and counts that can only be positive. -/
structure Tracks (records : List (T × D)) (registered : Registered T D) : Prop where
  delivered : registered.pusher.delivered = records
  counts : ∀ time, 0 ≤ registered.pusher.produced.value time
  tee : ∀ exchange ∈ registered.tee, exchange.Distributes ∧
    ∀ index, exchange.handed index = [] ∧ exchange.held index = []

variable {records : List (T × D)} {registered : Registered T D}

theorem Tracks.push_some (h : Tracks records registered) (message : Message T D) :
    Tracks (records ++ message.records) (registered.push (some message)) := by
  refine ⟨?_, fun time => ?_, h.tee⟩
  · rw [← h.delivered]
    exact Counter.delivered_push_some _ _
  · change 0 ≤ (registered.pusher.produced.update message.time message.data.length).value time
    have hcounts := h.counts time
    rw [ChangeBatch.value_update]
    split
    · omega
    · omega

theorem Tracks.push_none (h : Tracks records registered) : Tracks records (registered.push none) := by
  refine ⟨?_, fun time => ?_, h.tee⟩
  · rw [← h.delivered]
    exact Counter.delivered_push_none _
  · change 0 ≤ registered.pusher.produced.is_empty.2.value time
    rw [ChangeBatch.value_is_empty]
    exact h.counts time

theorem Tracks.schedule (h : Tracks records registered) : Tracks records registered.schedule := by
  refine ⟨h.delivered, fun time => ?_, h.tee⟩
  exact (ChangeBatch.value_drain_into _ _ time).2.ge

theorem Tracks.extract (h : Tracks records registered) : Tracks records registered.extract :=
  ⟨h.delivered, h.counts, h.tee⟩

/-- The records of a stream are with the workers they are for, handed or held. -/
theorem Tracks.pushed (h : Tracks records registered) {exchange : Exchange T D}
    (hexchange : exchange ∈ registered.consumers) :
    exchange.Distributes ∧ ∀ index, exchange.handed index ++ exchange.held index =
      records.filter fun record => exchange.worker record = index := by
  unfold consumers at hexchange
  rw [Tee.foldl_push] at hexchange
  obtain ⟨original, horiginal, rfl⟩ := List.mem_map.mp hexchange
  obtain ⟨hdistributes, hempty⟩ := h.tee original horiginal
  have hpushed := hdistributes.foldl_push registered.pusher.pushee
  refine ⟨hpushed.distributes, fun index => ?_⟩
  rw [hpushed.records, (hempty index).1, (hempty index).2, hpushed.worker, ← h.delivered]
  rfl

/-- No consumer holds a record. -/
def Flushed (registered : Registered T D) : Prop := ∀ exchange ∈ registered.consumers, exchange.Flushed

/-- All records have been handed to the workers they are for, and none is held. -/
def Complete (records : List (T × D)) (registered : Registered T D) : Prop :=
  ∀ exchange ∈ registered.consumers, exchange.Flushed ∧
    ∀ index, exchange.handed index = records.filter fun record => exchange.worker record = index

theorem Tracks.complete_iff (h : Tracks records registered) :
    registered.Complete records ↔ registered.Flushed := by
  constructor
  · exact fun hcomplete exchange hexchange => (hcomplete exchange hexchange).1
  · intro hflushed exchange hexchange
    obtain ⟨hdistributes, hrecords⟩ := h.pushed hexchange
    refine ⟨hflushed exchange hexchange, fun index => ?_⟩
    rw [← hrecords, hdistributes.flushed_iff.mp (hflushed exchange hexchange) index, List.append_nil]

/-- A flush reaches the consumers if there are counts to report. -/
theorem Tracks.flushed_push_none_iff (h : Tracks records registered) :
    (registered.push none).Flushed ↔
      registered.pusher.produced.is_empty.1 = false ∨ registered.Flushed := by
  unfold Flushed consumers push Counter.push
  cases hempty : registered.pusher.produced.is_empty.1 with
  | true => simp
  | false =>
    simp only [true_or, iff_true, Bool.false_eq_true, if_false, List.foldl_append, List.foldl_cons,
      List.foldl_nil]
    intro exchange hexchange
    obtain ⟨before, hbefore, rfl⟩ := List.mem_map.mp hexchange
    exact (h.pushed hbefore).1.push_none.2

/-- There are counts to report right after a message. -/
theorem Tracks.counted (h : Tracks records registered) {message : Message T D} (hdata : message.data ≠ []) :
    (registered.push (some message)).pusher.produced.is_empty.1 = false := by
  rw [← Bool.not_eq_true]
  intro hempty
  have hzero := ChangeBatch.value_of_is_empty hempty message.time
  change (registered.pusher.produced.update message.time message.data.length).value message.time = 0 at hzero
  have hcounts := h.counts message.time
  have hlength := List.length_pos_iff.mpr hdata
  rw [ChangeBatch.value_update, if_pos rfl] at hzero
  omega

end Registered

namespace Handle

/-- The records that wait in the buffer, with their time. -/
def pending (handle : Handle T D) : List (T × D) := handle.buffer1.map fun data => (handle.now_at, data)

/-- All streams have been sent the records that do not wait in the buffer. -/
def Tracks (sent : List (T × D)) (handle : Handle T D) : Prop :=
  ∃ records, records ++ handle.pending = sent ∧
    ∀ registered ∈ handle.pushers, registered.Tracks records

/-- Nothing waits in the buffer. -/
structure Drained (sent : List (T × D)) (now : T) (handle : Handle T D) : Prop where
  buffer : handle.buffer1 = []
  now_at : handle.now_at = now
  tracks : ∀ registered ∈ handle.pushers, registered.Tracks sent

theorem Drained.handle {sent : List (T × D)} {now : T} {handle : Handle T D} (h : Drained sent now handle) :
    Tracks sent handle := by
  refine ⟨sent, ?_, h.tracks⟩
  unfold pending
  rw [h.buffer, List.map_nil, List.append_nil]

variable {sent : List (T × D)} {handle : Handle T D}

theorem Tracks.flush (h : handle.Tracks sent) : Drained sent handle.now_at handle.flush := by
  obtain ⟨records, rfl, htracks⟩ := h
  refine ⟨rfl, rfl, fun registered hregistered => ?_⟩
  obtain ⟨before, hbefore, rfl⟩ := List.mem_map.mp hregistered
  exact (htracks before hbefore).push_some ⟨handle.now_at, handle.buffer1⟩

theorem Tracks.flush_pending (h : handle.Tracks sent) : Drained sent handle.now_at handle.flush_pending := by
  unfold Handle.flush_pending
  split
  case isTrue hempty =>
    obtain ⟨records, rfl, htracks⟩ := h
    have hnil := List.isEmpty_iff.mp hempty
    unfold pending
    rw [hnil, List.map_nil, List.append_nil]
    exact ⟨hnil, rfl, htracks⟩
  case isFalse => exact h.flush

theorem Tracks.close_epoch (h : handle.Tracks sent) : Drained sent handle.now_at handle.close_epoch := by
  have hflushed := h.flush_pending
  refine ⟨hflushed.buffer, hflushed.now_at, fun registered hregistered => ?_⟩
  obtain ⟨before, hbefore, rfl⟩ := List.mem_map.mp hregistered
  have hpushed := (hflushed.tracks before hbefore).push_none
  exact ⟨hpushed.delivered, hpushed.counts, hpushed.tee⟩

theorem Tracks.send (h : handle.Tracks sent) (data : D) :
    (handle.send data).Tracks (sent ++ [(handle.now_at, data)]) ∧
      (handle.send data).now_at = handle.now_at := by
  have hsent : Tracks (sent ++ [(handle.now_at, data)])
      { handle with buffer1 := handle.buffer1 ++ [data] } := by
    obtain ⟨records, rfl, htracks⟩ := h
    refine ⟨records, ?_, htracks⟩
    simp [pending]
  unfold Handle.send
  dsimp only
  split
  · exact ⟨hsent.flush.handle, rfl⟩
  · exact ⟨hsent, rfl⟩

theorem Tracks.send_batch (h : handle.Tracks sent) (buffer : List D) :
    (handle.send_batch buffer).Tracks (sent ++ buffer.map fun data => (handle.now_at, data)) ∧
      (handle.send_batch buffer).now_at = handle.now_at := by
  have hflushed := h.flush_pending
  unfold Handle.send_batch
  split
  case isTrue hempty =>
    rw [List.isEmpty_iff.mp hempty, List.map_nil, List.append_nil]
    exact ⟨h, rfl⟩
  case isFalse =>
    refine ⟨⟨sent ++ buffer.map fun data => (handle.now_at, data), ?_, fun registered hregistered => ?_⟩,
      hflushed.now_at⟩
    · unfold pending
      dsimp only
      rw [hflushed.buffer, List.map_nil, List.append_nil]
    · obtain ⟨before, hbefore, rfl⟩ := List.mem_map.mp hregistered
      exact (hflushed.tracks before hbefore).push_some ⟨handle.now_at, buffer⟩

theorem Tracks.advance_to (h : handle.Tracks sent) {next : T} {after : Handle T D}
    (hadvance : handle.advance_to next = some after) : after.Tracks sent ∧ after.now_at = next := by
  unfold Handle.advance_to at hadvance
  split_ifs at hadvance with hle hsame
  · cases hadvance
    exact ⟨h, hsame⟩
  · cases hadvance
    have hclosed := h.close_epoch
    refine ⟨⟨sent, ?_, fun registered hregistered => ?_⟩, rfl⟩
    · unfold pending
      dsimp only
      rw [hclosed.buffer, List.map_nil, List.append_nil]
    · obtain ⟨before, hbefore, rfl⟩ := List.mem_map.mp hregistered
      have hbefore := hclosed.tracks before hbefore
      exact ⟨hbefore.delivered, hbefore.counts, hbefore.tee⟩

/-- A change of a stream that pushes nothing. -/
theorem Tracks.modify (h : handle.Tracks sent) {act : Registered T D → Registered T D}
    (hact : ∀ {records registered}, Registered.Tracks records registered →
      Registered.Tracks records (act registered)) (index : ℕ) :
    Tracks sent { handle with pushers := handle.pushers.modify index act } := by
  obtain ⟨records, hsent, htracks⟩ := h
  refine ⟨records, hsent, fun registered hregistered => ?_⟩
  obtain ⟨position, hposition⟩ := List.mem_iff_getElem?.mp hregistered
  rw [List.getElem?_modify] at hposition
  obtain ⟨before, hbefore, rfl⟩ := Option.map_eq_some_iff.mp hposition
  have htracked := htracks before (List.mem_of_getElem? hbefore)
  split
  · exact hact htracked
  · exact htracked

/-! ### Closing a time -/

/-- What closing flushes for one stream: records wait in the handle, or there are counts to report,
    or nothing is held anyway. -/
def Reaches (handle : Handle T D) (registered : Registered T D) : Prop :=
  handle.buffer1 ≠ [] ∨ registered.pusher.produced.is_empty.1 = false ∨ registered.Flushed

/-- Each stream has handed all records to the workers they are for. -/
def Complete (sent : List (T × D)) (handle : Handle T D) : Prop :=
  ∀ registered ∈ handle.pushers, registered.Complete sent

theorem Tracks.complete_close_epoch_iff (h : handle.Tracks sent) :
    handle.close_epoch.Complete sent ↔ ∀ registered ∈ handle.pushers, handle.Reaches registered := by
  have hclosed := h.close_epoch
  have hcomplete : handle.close_epoch.Complete sent ↔
      ∀ registered ∈ handle.flush_pending.pushers, (registered.push none).Flushed := by
    constructor
    · intro hall registered hregistered
      have hmem := List.mem_map_of_mem (f := fun registered : Registered T D =>
        (registered.push none).update_progress handle.now_at (-1)) hregistered
      exact ((hclosed.tracks _ hmem).complete_iff).mp (hall _ hmem)
    · intro hall registered hregistered
      rw [(hclosed.tracks registered hregistered).complete_iff]
      obtain ⟨before, hbefore, rfl⟩ := List.mem_map.mp hregistered
      exact hall before hbefore
  rw [hcomplete]
  obtain ⟨records, rfl, htracks⟩ := h
  unfold Handle.flush_pending Reaches
  split
  case isTrue hempty =>
    refine forall₂_congr fun registered hregistered => ?_
    rw [(htracks registered hregistered).flushed_push_none_iff, List.isEmpty_iff.mp hempty]
    simp
  case isFalse hnonempty =>
    have hdata : handle.buffer1 ≠ [] := fun hnil => hnonempty (List.isEmpty_iff.mpr hnil)
    refine iff_of_true (fun registered hregistered => ?_) fun _ _ => Or.inl hdata
    obtain ⟨before, hbefore, rfl⟩ := List.mem_map.mp hregistered
    rw [((htracks before hbefore).push_some _).flushed_push_none_iff]
    exact Or.inl ((htracks before hbefore).counted hdata)

/-- The event closes a time: the handle advances to another one, or is closed. -/
def Closes (handle : Handle T D) : InputEvent T D → Prop
  | .advance_to next => next ≠ handle.now_at
  | .close => True
  | _ => False

end Handle

/-! ### Runs of a handle -/

/-- Streams that have just been registered, with at least two workers behind each consumer. -/
structure Registered.Fresh (registered : Registered T D) : Prop where
  pusher : registered.pusher = Counter.new
  tee : ∀ exchange ∈ registered.tee, ∃ workers key, 2 ≤ workers ∧ exchange = Exchange.new workers key

structure InputState.Fresh (state : InputState T D) : Prop where
  pushers : ∀ registered ∈ state.handle.pushers, registered.Fresh
  buffer : state.handle.buffer1 = []

theorem Registered.Fresh.tracks {registered : Registered T D} (h : registered.Fresh) :
    registered.Tracks [] := by
  refine ⟨?_, fun time => ?_, fun exchange hexchange => ?_⟩
  · rw [h.pusher]
    rfl
  · rw [h.pusher]
    exact le_rfl
  · obtain ⟨workers, key, hmany, rfl⟩ := h.tee exchange hexchange
    refine ⟨Exchange.distributes_new hmany key, fun index => ⟨?_, rfl⟩⟩
    unfold Exchange.handed Exchange.new
    cases hpushed : (List.replicate workers ([] : List (Option (Message T D))))[index]? with
    | none => rfl
    | some pushed =>
      rw [(List.mem_replicate.mp (List.mem_of_getElem? hpushed)).2]
      rfl

/-- In all runs the streams have been sent the records of the run. -/
theorem tracks_of_run {start last : InputState T D} (hfresh : start.Fresh) {events : List (InputEvent T D)}
    (hrun : Run InputStep start events last) :
    last.handle.Tracks (sent_records start.handle.now_at events) ∧
      last.handle.now_at = time_after start.handle.now_at events := by
  have hstart : start.handle.Tracks [] := by
    refine ⟨[], ?_, fun registered hregistered => (hfresh.pushers registered hregistered).tracks⟩
    unfold Handle.pending
    rw [hfresh.buffer]
    rfl
  refine hrun.invariant (P := fun events last =>
    last.handle.Tracks (sent_records start.handle.now_at events) ∧
      last.handle.now_at = time_after start.handle.now_at events) ⟨hstart, rfl⟩ ?_
  rintro events before event after ⟨htracks, htime⟩ hstep
  rw [sent_records_append, time_after_append, ← htime]
  cases hstep with
  | send data => exact htracks.send data
  | send_batch buffer =>
    obtain ⟨hsent, hnow⟩ := htracks.send_batch buffer
    refine ⟨?_, hnow⟩
    rwa [sent_records, sent_records, List.append_nil]
  | advance_to hadvance =>
    rw [sent_records, sent_records, List.append_nil]
    exact htracks.advance_to hadvance
  | close =>
    rw [sent_records, sent_records, List.append_nil]
    exact ⟨htracks.close_epoch.handle, htracks.close_epoch.now_at⟩
  | schedule index =>
    rw [sent_records, sent_records, List.append_nil]
    exact ⟨htracks.modify Registered.Tracks.schedule index, rfl⟩
  | extract index =>
    rw [sent_records, sent_records, List.append_nil]
    exact ⟨htracks.modify Registered.Tracks.extract index, rfl⟩

/-- Once a time has been closed, all records sent so far have been handed to the workers they are
    for, exactly if for each stream records waited in the handle, or counts had not been taken since
    the last message, or nothing was held. -/
theorem closed_times_complete_iff {start before after : InputState T D} (hfresh : start.Fresh)
    {events : List (InputEvent T D)} (hrun : Run InputStep start events before)
    {event : InputEvent T D} (hcloses : before.handle.Closes event) (hstep : InputStep before event after) :
    after.handle.Complete (sent_records start.handle.now_at events) ↔
      ∀ registered ∈ before.handle.pushers, before.handle.Reaches registered := by
  obtain ⟨htracks, -⟩ := tracks_of_run hfresh hrun
  rw [← htracks.complete_close_epoch_iff]
  cases hstep with
  | send => exact absurd hcloses id
  | send_batch => exact absurd hcloses id
  | @advance_to handle after next hadvance =>
    unfold Handle.advance_to at hadvance
    split_ifs at hadvance with hle hsame
    · exact absurd hsame.symm hcloses
    · cases hadvance
      exact List.forall_mem_map
  | close => exact Iff.rfl
  | schedule => exact absurd hcloses id
  | extract => exact absurd hcloses id

/-- One stream with one consumer, of two workers, which gets the records by their remainder. -/
def example_input (now : T) : InputState T ℕ where
  handle :=
    { pushers :=
        [{ pusher := Counter.new
           tee := [Exchange.new 2 fun _ datum => datum]
           progress := ChangeBatch.new
           internal := ChangeBatch.new
           produced := ChangeBatch.new }]
      buffer1 := []
      now_at := now }
  closed := false

theorem example_input_fresh (now : T) : (example_input now).Fresh := by
  refine ⟨fun registered hregistered => ?_, rfl⟩
  rw [List.mem_singleton.mp hregistered]
  refine ⟨rfl, fun exchange hexchange => ?_⟩
  exact ⟨2, fun _ datum => datum, le_rfl, List.mem_singleton.mp hexchange⟩

/-- A batch of one record is sent. -/
def batch_sent (now : T) (datum : ℕ) : InputState T ℕ :=
  ⟨(example_input now).handle.send_batch [datum], false⟩

theorem run_batch_sent (now : T) (datum : ℕ) :
    Run InputStep (example_input now) [.send_batch [datum]] (batch_sent now datum) :=
  Run.nil.snoc (.send_batch [datum])

/-- The operator is scheduled after a batch of one record has been sent. -/
def batch_reported (now : T) (datum : ℕ) : InputState T ℕ :=
  ⟨{ (batch_sent now datum).handle with
      pushers := (batch_sent now datum).handle.pushers.modify 0 Registered.schedule }, false⟩

theorem run_batch_reported (now : T) (datum : ℕ) :
    Run InputStep (example_input now) [.send_batch [datum], .schedule 0] (batch_reported now datum) :=
  (run_batch_sent now datum).snoc (.schedule 0)

/-- A batch is handed over when the input is closed right after it. -/
theorem closed_times_complete_iff_example :
    (batch_sent (0 : Unsigned 64) 5).handle.close_epoch.Complete
      (sent_records (0 : Unsigned 64) [.send_batch [5]]) := by
  have hcloses : (batch_sent (0 : Unsigned 64) 5).handle.Closes .close := trivial
  have hcounts : ∀ registered ∈ (batch_sent (0 : Unsigned 64) 5).handle.pushers,
      registered.pusher.produced.is_empty.1 = false := by decide
  exact (closed_times_complete_iff (example_input_fresh 0) (run_batch_sent 0 5) hcloses .close).mpr
    fun registered hregistered => Or.inr (Or.inl (hcounts registered hregistered))

theorem batch_reported_advances : ((batch_reported (0 : Unsigned 64) 5).handle.advance_to 1).isSome := by
  decide

/-- A batch is withheld when the operator is scheduled before the input advances. -/
theorem batch_withheld : ∃ after,
    Run InputStep (example_input (0 : Unsigned 64)) [.send_batch [5], .schedule 0] (batch_reported 0 5) ∧
    InputStep (batch_reported (0 : Unsigned 64) 5) (.advance_to 1) after ∧
    ¬ after.handle.Complete (sent_records (0 : Unsigned 64) [.send_batch [5], .schedule 0]) := by
  refine ⟨⟨((batch_reported (0 : Unsigned 64) 5).handle.advance_to 1).get batch_reported_advances, false⟩,
    run_batch_reported 0 5, .advance_to (Option.some_get batch_reported_advances).symm, fun hcomplete => ?_⟩
  have hheld : ¬ ∀ registered ∈
      (((batch_reported (0 : Unsigned 64) 5).handle.advance_to 1).get batch_reported_advances).pushers,
      ∀ exchange ∈ registered.consumers, ∀ buffer ∈ exchange.buffers, buffer = [] := by
    decide
  exact hheld fun registered hregistered exchange hexchange =>
    (hcomplete registered hregistered exchange hexchange).1

end Timely
