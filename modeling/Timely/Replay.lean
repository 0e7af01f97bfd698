/-
  Timely/Replay.lean
  ==================
  **Replaying captured streams** (`timely/src/dataflow/operators/capture/replay.rs`).

  One operator replays any number of captured streams, at whatever speed each of
  them yields its events.  It holds the capabilities of all of them at once, and
  sends the records that they hold, each stream's in order.
-/
import Timely.Capture
import Mathlib.Algebra.BigOperators.Group.Finset.Basic
import Mathlib.Algebra.Order.BigOperators.Group.Finset

set_option linter.unusedSectionVars false

namespace Timely

open Library

/-! ### The operator -/

/-- The state of the operator: how many streams it manages, its output, and the internal and
    produced counts that it shares with its parent. -/
structure Replay (T D : Type) [Ord T] where
  event_streams : ℕ
  started : Bool
  output : Buffer T D
  internals : ChangeBatch T
  produceds : ChangeBatch T

variable {T D : Type} [PartialOrder T] [DecidableEq T] [Ord T] [LinearExtension T] [Timestamp T]

namespace Replay

def new (event_streams : ℕ) : Replay T D where
  event_streams := event_streams
  started := false
  output := Buffer.new Counter.new
  internals := ChangeBatch.new
  produceds := ChangeBatch.new

/-- Modify the capabilities to match the number of streams, once. -/
def start (replay : Replay T D) : Replay T D :=
  if replay.started then replay
  else
    { replay with
      internals := replay.internals.update Timestamp.minimum (replay.event_streams - 1)
      started := true }

/-- Replay one event. -/
def replay_event (replay : Replay T D) : Event T D → Replay T D
  | .progress changes => { replay with internals := replay.internals.extend changes }
  | .messages time data =>
    { replay with output := ((replay.output.session time).give_iterator data).buffer }

/-- Replay the events of one stream until it has none. -/
def replay_stream (replay : Replay T D) (events : List (Event T D)) : Replay T D :=
  events.foldl replay_event replay

/-- Cease the output, and report what it has produced. -/
def finish (replay : Replay T D) : Replay T D :=
  let output := replay.output.cease
  { replay with
    output :=
      { output with
        pusher :=
          { output.pusher with
            produced := (output.pusher.produced.drain_into replay.produceds).1 } }
    produceds := (output.pusher.produced.drain_into replay.produceds).2 }

/-- Schedule the operator: each stream yields some events before it yields none. -/
def schedule (replay : Replay T D) (chunks : List (List (Event T D))) : Replay T D :=
  (chunks.foldl replay_stream replay.start).finish

end Replay

/-! ### Runs -/

/-- The operator is scheduled, or its parent takes the internal changes that it reports. -/
inductive ReplayEvent (T D : Type) where
  | schedule (chunks : List (List (Event T D)))
  | extract (internals : List (T × ℤ))

inductive ReplayStep : Replay T D → ReplayEvent T D → Replay T D → Prop
  | schedule {replay : Replay T D} {chunks : List (List (Event T D))} :
      chunks.length = replay.event_streams →
      ReplayStep replay (.schedule chunks) (replay.schedule chunks)
  | extract {replay : Replay T D} :
      ReplayStep replay (.extract replay.internals.drain.1)
        { replay with
          internals := replay.internals.drain.2
          produceds := replay.produceds.drain.2 }

namespace ReplayEvent

/-- The events that one stream yields. -/
def read (stream : ℕ) : ReplayEvent T D → List (Event T D)
  | .schedule chunks => (chunks[stream]?).getD []
  | .extract _ => []

def extracted : ReplayEvent T D → List (T × ℤ)
  | .schedule _ => []
  | .extract internals => internals

/-- The operator has been scheduled. -/
def is_schedule : ReplayEvent T D → Bool
  | .schedule _ => true
  | .extract _ => false

end ReplayEvent

/-- All events that one stream has yielded. -/
def all_read (labels : List (ReplayEvent T D)) (stream : ℕ) : List (Event T D) :=
  labels.flatMap (ReplayEvent.read stream)

/-- The accumulated internal counts: one initial capability, what the parent has taken, and what
    waits for it. -/
def Replay.capabilities (replay : Replay T D) (labels : List (ReplayEvent T D)) (time : T) : ℤ :=
  (if time = Timestamp.minimum then 1 else 0) + tally (labels.flatMap ReplayEvent.extracted) time +
    replay.internals.value time

/-! ### Counts -/

namespace Replay

theorem value_replay_stream (replay : Replay T D) (events : List (Event T D)) (time : T) :
    (replay.replay_stream events).internals.value time =
      replay.internals.value time + tally (events.flatMap Event.changes) time := by
  unfold replay_stream
  induction events generalizing replay with
  | nil => simp
  | cons event events ih =>
    rw [List.foldl_cons, ih, List.flatMap_cons, tally_append, ← add_assoc]
    congr 1
    cases event with
    | progress changes => exact ChangeBatch.value_extend _ _ _
    | messages time data => exact (add_zero _).symm

theorem value_foldl_replay_stream (replay : Replay T D) (chunks : List (List (Event T D))) (time : T) :
    (chunks.foldl replay_stream replay).internals.value time =
      replay.internals.value time + (chunks.map fun chunk => tally (chunk.flatMap Event.changes) time).sum := by
  induction chunks generalizing replay with
  | nil => simp
  | cons chunk chunks ih =>
    rw [List.foldl_cons, ih, value_replay_stream, List.map_cons, List.sum_cons, add_assoc]

end Replay

/-- A sum over chunks is a sum over streams, of which the last may not have yielded any. -/
theorem sum_chunks {A : Type} (weight : List A → ℤ) (hnil : weight [] = 0) (chunks : List (List A))
    {streams : ℕ} (hlength : chunks.length ≤ streams) :
    ∑ stream ∈ Finset.range streams, weight ((chunks[stream]?).getD []) = (chunks.map weight).sum := by
  induction chunks generalizing streams with
  | nil => simp [hnil]
  | cons chunk chunks ih =>
    obtain ⟨rest, rfl⟩ : ∃ rest, streams = rest + 1 :=
      ⟨streams - 1, by rw [List.length_cons] at hlength; omega⟩
    rw [Finset.sum_range_succ', List.map_cons, List.sum_cons]
    have hrest : ∑ stream ∈ Finset.range rest, weight ((chunks[stream]?).getD []) = (chunks.map weight).sum :=
      ih (by rw [List.length_cons] at hlength; omega)
    simp only [List.getElem?_cons_succ, List.getElem?_cons_zero, Option.getD_some]
    rw [hrest, add_comm]

/-! ### Records -/

namespace Replay

theorem given_replay_event (replay : Replay T D) (event : Event T D) :
    (replay.replay_event event).output.given = replay.output.given ++ event.records := by
  cases event with
  | progress changes => exact (List.append_nil _).symm
  | messages time data =>
    have hgiven := Session.give_iterator_spec (Buffer.time_session replay.output time) data
    rw [Buffer.given_session] at hgiven
    exact hgiven

theorem given_foldl_replay_stream (replay : Replay T D) (chunks : List (List (Event T D))) :
    (chunks.foldl replay_stream replay).output.given =
      replay.output.given ++ chunks.flatMap fun chunk => chunk.flatMap Event.records := by
  have hstream : ∀ (events : List (Event T D)) (replay : Replay T D),
      (replay.replay_stream events).output.given =
        replay.output.given ++ events.flatMap Event.records := by
    intro events
    unfold replay_stream
    induction events with
    | nil => exact fun _ => (List.append_nil _).symm
    | cons event events ih =>
      intro replay
      rw [List.foldl_cons, ih, given_replay_event, List.flatMap_cons, List.append_assoc]
  induction chunks generalizing replay with
  | nil => exact (List.append_nil _).symm
  | cons chunk chunks ih =>
    rw [List.foldl_cons, ih, hstream, List.flatMap_cons, List.append_assoc]

theorem given_start (replay : Replay T D) : replay.start.output = replay.output := by
  unfold start
  split <;> rfl

/-- All records given in a call have been pushed when it is done. -/
theorem delivered_schedule (replay : Replay T D) (chunks : List (List (Event T D))) :
    (replay.schedule chunks).output.pusher.delivered =
      replay.output.given ++ chunks.flatMap (fun chunk => chunk.flatMap Event.records) ∧
    (replay.schedule chunks).output.given = (replay.schedule chunks).output.pusher.delivered := by
  have hgiven := given_foldl_replay_stream replay.start chunks
  rw [given_start] at hgiven
  obtain ⟨hsame, hdelivered⟩ := (chunks.foldl replay_stream replay.start).output.cease_spec
  exact ⟨hdelivered.trans hgiven, hsame.trans hdelivered.symm⟩

end Replay

/-- The records of some chunks, each with its stream. -/
def tagged_records (chunks : List (List (Event T D))) : List (ℕ × T × D) :=
  chunks.zipIdx.flatMap fun chunk => (chunk.1.flatMap Event.records).map fun record => (chunk.2, record)

theorem tagged_records_snoc (chunks : List (List (Event T D))) (chunk : List (Event T D)) :
    tagged_records (chunks ++ [chunk]) = tagged_records chunks ++
      (chunk.flatMap Event.records).map fun record => (chunks.length, record) := by
  unfold tagged_records
  rw [List.zipIdx_append, List.flatMap_append]
  simp

theorem tagged_records_spec (chunks : List (List (Event T D))) :
    (tagged_records chunks).map Prod.snd = chunks.flatMap (fun chunk => chunk.flatMap Event.records) ∧
    (∀ entry ∈ tagged_records chunks, entry.1 < chunks.length) ∧
    ∀ stream, ((tagged_records chunks).filter fun entry => entry.1 = stream).map Prod.snd =
      ((chunks[stream]?).getD []).flatMap Event.records := by
  induction chunks using List.reverseRecOn with
  | nil => exact ⟨rfl, fun entry hentry => absurd hentry List.not_mem_nil, fun _ => rfl⟩
  | append_singleton chunks chunk ih =>
    obtain ⟨hrecords, hbound, hfilter⟩ := ih
    rw [tagged_records_snoc]
    refine ⟨?_, ?_, ?_⟩
    · rw [List.map_append, hrecords, List.flatMap_append]
      simp [Function.comp_def]
    · intro entry hentry
      rw [List.length_append, List.length_singleton]
      rcases List.mem_append.mp hentry with hold | hnew
      · exact Nat.lt_succ_of_lt (hbound entry hold)
      · obtain ⟨record, _, rfl⟩ := List.mem_map.mp hnew
        exact Nat.lt_succ_self _
    · intro stream
      rw [List.filter_append, List.map_append, hfilter]
      rcases Nat.lt_trichotomy stream chunks.length with hlt | rfl | hgt
      · have hnone : ((chunk.flatMap Event.records).map fun record => (chunks.length, record)).filter
            (fun entry => entry.1 = stream) = [] := by
          simp [List.filter_map, Function.comp_def, hlt.ne']
        rw [hnone, List.map_nil, List.append_nil, List.getElem?_append_left hlt]
      · rw [List.getElem?_concat_length]
        simp [List.filter_map, Function.comp_def]
      · have hnone : ((chunk.flatMap Event.records).map fun record => (chunks.length, record)).filter
            (fun entry => entry.1 = stream) = [] := by
          simp [List.filter_map, Function.comp_def, hgt.ne]
        rw [hnone, List.getElem?_eq_none hgt.le, List.getElem?_eq_none (by simp; omega)]
        rfl

/-! ### Faithfulness -/

/-- What replaying some streams has come to: the records of each stream in its order, their
    capabilities added up, each message sent in advance of one of them, and none left in the end. -/
structure Faithful (streams : List (List (Event T D))) (labels : List (ReplayEvent T D))
    (replay : Replay T D) : Prop where
  records : ∃ sent : List (ℕ × T × D), replay.output.pusher.delivered = sent.map Prod.snd ∧
    (∀ entry ∈ sent, entry.1 < streams.length) ∧
    ∀ stream < streams.length, (sent.filter fun entry => entry.1 = stream).map Prod.snd =
      (all_read labels stream).flatMap Event.records
  counts : labels.any ReplayEvent.is_schedule = true → ∀ time, replay.capabilities labels time =
    ∑ stream ∈ Finset.range streams.length, Event.accumulated (all_read labels stream) time
  covered : ∀ before chunks after, labels = before ++ .schedule chunks :: after → ∃ state,
    Run ReplayStep (Replay.new streams.length) before state ∧
    ∀ done earlier time data later rest, chunks = done ++ (earlier ++ .messages time data :: later) :: rest →
      ∃ least, least ≤ time ∧
        0 < ((done.foldl Replay.replay_stream state.start).replay_stream earlier).capabilities before least
  ended : labels.any ReplayEvent.is_schedule = true →
    (∀ stream events, streams[stream]? = some events → all_read labels stream = events ∧
      ∀ time, Event.accumulated events time = 0) → ∀ time, replay.capabilities labels time = 0

/-- What holds of the operator after some steps. -/
structure Replaying (streams : ℕ) (labels : List (ReplayEvent T D)) (replay : Replay T D) : Prop where
  managed : replay.event_streams = streams
  started : replay.started = labels.any ReplayEvent.is_schedule
  counts : ∀ time, replay.start.capabilities labels time =
    ∑ stream ∈ Finset.range streams, Event.accumulated (all_read labels stream) time
  flushed : replay.output.given = replay.output.pusher.delivered
  records : ∃ sent : List (ℕ × T × D), replay.output.pusher.delivered = sent.map Prod.snd ∧
    (∀ entry ∈ sent, entry.1 < streams) ∧
    ∀ stream < streams, (sent.filter fun entry => entry.1 = stream).map Prod.snd =
      (all_read labels stream).flatMap Event.records

theorem all_read_snoc (labels : List (ReplayEvent T D)) (label : ReplayEvent T D) (stream : ℕ) :
    all_read (labels ++ [label]) stream = all_read labels stream ++ label.read stream := by
  simp [all_read]

theorem replaying_new (streams : ℕ) : Replaying streams [] (Replay.new streams : Replay T D) where
  managed := rfl
  started := rfl
  counts time := by
    have hnone : ∀ stream, Event.accumulated (all_read ([] : List (ReplayEvent T D)) stream) time =
        if time = Timestamp.minimum then 1 else 0 := fun _ => Event.accumulated_nil time
    simp only [hnone, Finset.sum_const, Finset.card_range]
    change _ + 0 + ChangeBatch.value (ChangeBatch.new.update Timestamp.minimum ((streams : ℤ) - 1)) time = _
    rw [ChangeBatch.value_update]
    by_cases hminimum : time = Timestamp.minimum
    · simp [hminimum]
    · simp [hminimum, Ne.symm hminimum]
  flushed := Buffer.given_new _
  records := ⟨[], rfl, fun entry hentry => absurd hentry List.not_mem_nil, fun _ _ => rfl⟩

namespace Replaying

variable {streams : ℕ} {labels : List (ReplayEvent T D)} {replay after : Replay T D}

/-- While the operator reads, its counts are those of what it has read. -/
theorem counts_reading (h : Replaying streams labels replay) {chunks : List (List (Event T D))}
    (hlength : chunks.length ≤ streams) (time : T) :
    (chunks.foldl Replay.replay_stream replay.start).capabilities labels time =
      ∑ stream ∈ Finset.range streams,
        Event.accumulated (all_read labels stream ++ (chunks[stream]?).getD []) time := by
  have hsum := sum_chunks (fun chunk => tally (chunk.flatMap Event.changes) time) rfl chunks hlength
  have hcounts := h.counts time
  unfold Replay.capabilities at hcounts ⊢
  rw [Replay.value_foldl_replay_stream, ← add_assoc, hcounts, ← hsum, ← Finset.sum_add_distrib]
  exact Finset.sum_congr rfl fun stream _ => (Event.accumulated_append _ _ time).symm

theorem start_of_started {replay : Replay T D} (h : replay.started = true) : replay.start = replay := by
  unfold Replay.start
  rw [if_pos h]

theorem started_schedule (replay : Replay T D) (chunks : List (List (Event T D))) :
    (replay.schedule chunks).started = true ∧
      (replay.schedule chunks).event_streams = replay.event_streams ∧
      (replay.schedule chunks).internals = (chunks.foldl Replay.replay_stream replay.start).internals := by
  have hkept : ∀ (chunks : List (List (Event T D))) (state : Replay T D),
      (chunks.foldl Replay.replay_stream state).started = state.started ∧
        (chunks.foldl Replay.replay_stream state).event_streams = state.event_streams := by
    have hevents : ∀ (events : List (Event T D)) (state : Replay T D),
        (state.replay_stream events).started = state.started ∧
          (state.replay_stream events).event_streams = state.event_streams := by
      intro events
      unfold Replay.replay_stream
      induction events with
      | nil => exact fun _ => ⟨rfl, rfl⟩
      | cons event events ih =>
        intro state
        obtain ⟨hstarted, hmanaged⟩ := ih (state.replay_event event)
        cases event with
        | progress changes => exact ⟨hstarted, hmanaged⟩
        | messages time data => exact ⟨hstarted, hmanaged⟩
    intro chunks
    induction chunks with
    | nil => exact fun _ => ⟨rfl, rfl⟩
    | cons chunk chunks ih =>
      intro state
      obtain ⟨hstarted, hmanaged⟩ := ih (state.replay_stream chunk)
      obtain ⟨hstarted', hmanaged'⟩ := hevents chunk state
      exact ⟨hstarted.trans hstarted', hmanaged.trans hmanaged'⟩
  have hstart : replay.start.started = true ∧ replay.start.event_streams = replay.event_streams := by
    unfold Replay.start
    split
    case isTrue hstarted => exact ⟨hstarted, rfl⟩
    case isFalse => exact ⟨rfl, rfl⟩
  obtain ⟨hstarted, hmanaged⟩ := hkept chunks replay.start
  exact ⟨hstarted.trans hstart.1, hmanaged.trans hstart.2, rfl⟩

theorem schedule (h : Replaying streams labels replay) {chunks : List (List (Event T D))}
    (hlength : chunks.length = replay.event_streams) :
    Replaying streams (labels ++ [.schedule chunks]) (replay.schedule chunks) := by
  obtain ⟨hstarted, hmanaged, hinternals⟩ := started_schedule replay chunks
  obtain ⟨hdelivered, hflushed⟩ := replay.delivered_schedule chunks
  have hchunks : chunks.length = streams := hlength.trans h.managed
  refine ⟨hmanaged.trans h.managed, ?_, ?_, hflushed, ?_⟩
  · rw [hstarted, List.any_append]
    simp [ReplayEvent.is_schedule]
  · intro time
    rw [start_of_started hstarted]
    have hcounts := h.counts_reading hchunks.le time
    unfold Replay.capabilities at hcounts ⊢
    rw [hinternals, List.flatMap_append]
    simp only [all_read_snoc]
    refine Eq.trans ?_ hcounts
    simp [ReplayEvent.extracted]
  · obtain ⟨sent, hsent, hbound, hstreams⟩ := h.records
    obtain ⟨hrecords, hnew, hfilter⟩ := tagged_records_spec chunks
    refine ⟨sent ++ tagged_records chunks, ?_, ?_, ?_⟩
    · rw [hdelivered, h.flushed, hsent, List.map_append, hrecords]
    · intro entry hentry
      rcases List.mem_append.mp hentry with hold | hmember
      · exact hbound entry hold
      · rw [← hchunks]
        exact hnew entry hmember
    · intro stream hstream
      rw [List.filter_append, List.map_append, hstreams stream hstream, hfilter, all_read_snoc,
        List.flatMap_append]
      rfl

/-- What the start adds to the counts. -/
theorem value_start (replay : Replay T D) (time : T) :
    replay.start.internals.value time = replay.internals.value time +
      if replay.started = true then 0 else if Timestamp.minimum = time then (replay.event_streams : ℤ) - 1 else 0 := by
  unfold Replay.start
  split
  case isTrue => rw [add_zero]
  case isFalse => exact ChangeBatch.value_update _ _ _ _

theorem extract (h : Replaying streams labels replay) :
    Replaying streams (labels ++ [.extract replay.internals.drain.1])
      { replay with internals := replay.internals.drain.2, produceds := replay.produceds.drain.2 } := by
  have hread : ∀ stream, all_read (labels ++ [(.extract replay.internals.drain.1 : ReplayEvent T D)]) stream =
      all_read labels stream := fun stream => (all_read_snoc _ _ _).trans (List.append_nil _)
  refine ⟨h.managed, ?_, ?_, h.flushed, ?_⟩
  · rw [List.any_append]
    simpa [ReplayEvent.is_schedule] using h.started
  · intro time
    -- what is taken is what has waited
    have hcounts := h.counts time
    simp only [hread]
    rw [← hcounts]
    unfold Replay.capabilities
    rw [value_start, value_start, List.flatMap_append, tally_append]
    have htaken : tally (([(.extract replay.internals.drain.1 : ReplayEvent T D)]).flatMap
        ReplayEvent.extracted) time = replay.internals.value time := by
      simp [ReplayEvent.extracted, ChangeBatch.drain]
    have hempty : replay.internals.drain.2.value time = 0 := rfl
    rw [htaken]
    dsimp only
    rw [hempty]
    omega
  · obtain ⟨sent, hsent, hbound, hstreams⟩ := h.records
    refine ⟨sent, hsent, hbound, fun stream hstream => ?_⟩
    rw [hread]
    exact hstreams stream hstream

theorem of_run (hrun : Run ReplayStep (Replay.new streams) labels replay) :
    Replaying streams labels replay := by
  refine hrun.invariant (P := Replaying streams) (replaying_new streams) ?_
  intro labels before label after hbefore hstep
  cases hstep with
  | schedule hlength => exact hbefore.schedule hlength
  | extract => exact hbefore.extract

end Replaying

/-- What has been read in the middle of a call is a part of what has been read in the end. -/
theorem prefix_of_part {before after : List (ReplayEvent T D)} {done rest : List (List (Event T D))}
    {chunk part : List (Event T D)} (hpart : part <+: chunk) (stream : ℕ) :
    all_read before stream ++ ((done ++ [part])[stream]?).getD [] <+:
      all_read (before ++ .schedule (done ++ chunk :: rest) :: after) stream := by
  have hall : all_read (before ++ .schedule (done ++ chunk :: rest) :: after) stream =
      all_read before stream ++ (((done ++ chunk :: rest)[stream]?).getD [] ++ all_read after stream) := by
    simp [all_read, ReplayEvent.read]
  rw [hall]
  refine (List.prefix_append_right_inj _).mpr (List.IsPrefix.trans ?_ (List.prefix_append _ _))
  rcases Nat.lt_trichotomy stream done.length with hlt | rfl | hgt
  · refine ⟨[], ?_⟩
    rw [List.append_nil, List.getElem?_append_left hlt, List.getElem?_append_left hlt]
  · rw [List.getElem?_concat_length, List.getElem?_append_right le_rfl, Nat.sub_self]
    exact hpart
  · rw [List.getElem?_eq_none (by simp; omega)]
    exact List.nil_prefix

/-- Linked lists hand out their events as they should be read: where each call reads what the iterator of a
    stream's list returns, and the stream is what is pushed at the list, a part of the stream has been
    read. -/
theorem read_of_links {streams : List (List (Event T D))} {labels : List (ReplayEvent T D)}
    {links : ℕ → List (LinkEvent T D)} (hruns : ∀ stream, ∃ list, Run LinkStep EventList.new (links stream) list)
    (hpushed : ∀ stream events, streams[stream]? = some events →
      (links stream).flatMap LinkEvent.pushed = events)
    (hreturned : ∀ stream, all_read labels stream = (links stream).flatMap LinkEvent.returned) (stream : ℕ)
    (events : List (Event T D)) (hevents : streams[stream]? = some events) :
    all_read labels stream <+: events := by
  obtain ⟨list, hrun⟩ := hruns stream
  rw [hreturned, ← hpushed stream events hevents]
  exact returned_prefix hrun

/-- Replay of captured streams is faithful. -/
theorem replay_faithful {streams : List (List (Event T D))} (hstreams : ∀ events ∈ streams, Captured events)
    {labels : List (ReplayEvent T D)} {replay : Replay T D}
    (hrun : Run ReplayStep (Replay.new streams.length) labels replay)
    (hread : ∀ stream events, streams[stream]? = some events → all_read labels stream <+: events) :
    Faithful streams labels replay := by
  have hreplaying := Replaying.of_run hrun
  have hcounts : labels.any ReplayEvent.is_schedule = true → ∀ time, replay.capabilities labels time =
      ∑ stream ∈ Finset.range streams.length, Event.accumulated (all_read labels stream) time := by
    intro hscheduled time
    rw [← hreplaying.counts, Replaying.start_of_started (hreplaying.started.trans hscheduled)]
  refine ⟨hreplaying.records, hcounts, ?_, ?_⟩
  · rintro before chunks after rfl
    obtain ⟨state, hbefore, hrest⟩ := hrun.of_append
    refine ⟨state, hbefore, ?_⟩
    rintro done earlier time data later rest rfl
    obtain ⟨next, hstep, -⟩ := hrest.of_cons
    have hbefore' := Replaying.of_run hbefore
    have hlength : (done ++ (earlier ++ .messages time data :: later) :: rest).length = streams.length := by
      cases hstep with
      | schedule hlength => exact hlength.trans hbefore'.managed
    -- at that moment some streams have been read, and one in part
    have hpart : (done ++ [earlier]).length ≤ streams.length := by
      rw [← hlength]
      simp
    have hinitial : ∀ part, part <+: earlier ++ .messages time data :: later → ∀ stream events,
        streams[stream]? = some events →
          all_read before stream ++ ((done ++ [part])[stream]?).getD [] <+: events :=
      fun part hpart stream events hevents => (prefix_of_part hpart stream).trans (hread stream events hevents)
    have hbound : done.length < streams.length := by
      rw [← hlength]
      simp
    have hstream := List.getElem?_eq_getElem hbound
    have hwellFormed : ∀ stream events, streams[stream]? = some events → WellFormed events :=
      fun stream events hevents => (hstreams events (List.mem_of_getElem? hevents)).wellFormed
    obtain ⟨least, hle, hpositive⟩ := (hwellFormed _ _ hstream).covered
      (all_read before done.length ++ earlier) time data (by
        have hsent := hinitial (earlier ++ [.messages time data]) ⟨later, by simp⟩ _ _ hstream
        rwa [List.getElem?_concat_length, Option.getD_some, ← List.append_assoc] at hsent)
    refine ⟨least, hle, ?_⟩
    have hmoment := hbefore'.counts_reading hpart least
    rw [List.foldl_append] at hmoment
    refine lt_of_lt_of_le hpositive (le_of_le_of_eq ?_ hmoment.symm)
    have hown : all_read before done.length ++ earlier =
        all_read before done.length ++ ((done ++ [earlier])[done.length]?).getD [] := by
      rw [List.getElem?_concat_length, Option.getD_some]
    rw [hown]
    refine Finset.single_le_sum (f := fun stream => Event.accumulated
      (all_read before stream ++ ((done ++ [earlier])[stream]?).getD []) least) ?_ (Finset.mem_range.mpr hbound)
    intro stream hmember
    have hevents := List.getElem?_eq_getElem (Finset.mem_range.mp hmember)
    exact (hwellFormed _ _ hevents).nonneg _ (hinitial earlier (List.prefix_append _ _) _ _ hevents) least
  · intro hscheduled hended time
    rw [hcounts hscheduled]
    refine Finset.sum_eq_zero fun stream hstream => ?_
    have hbound := Finset.mem_range.mp hstream
    obtain ⟨hall, hzero⟩ := hended stream _ (List.getElem?_eq_getElem hbound)
    rw [hall]
    exact hzero time

/-- A stream that leaves the minimum for `5`, where it has one record, and ends. -/
def example_events : List (Event (Unsigned 64) ℕ) :=
  [.progress [(0, -1), (5, 1)], .messages 5 [7], .progress [(5, -1)]]

theorem example_events_captured : Captured example_events := by
  have hfirst : ∀ time : Unsigned 64, 0 ≤ tally [((0 : Unsigned 64), (1 : ℤ)), (0, -1), (5, 1)] time := by
    intro time
    simp only [tally_cons, tally_nil]
    split_ifs <;> decide
  have hlast : ∀ time : Unsigned 64,
      0 ≤ tally [((0 : Unsigned 64), (1 : ℤ)), (0, -1), (5, 1), (5, -1)] time := by
    intro time
    simp only [tally_cons, tally_nil]
    split_ifs <;> decide
  have hcovered : ∀ message ∈ [(⟨5, [7]⟩ : Message (Unsigned 64) ℕ)], ∃ time, time ≤ message.time ∧
      0 < tally [((0 : Unsigned 64), (1 : ℤ)), (0, -1), (5, 1)] time := by
    intro message hmessage
    obtain rfl := List.mem_singleton.mp hmessage
    exact ⟨5, le_rfl, by decide⟩
  have hrun : Run CaptureStep (⟨Capture.new, []⟩ : CaptureSite (Unsigned 64) ℕ)
      ([] ++ [.frontier [(0, 1), (0, -1), (5, 1)]] ++ [.schedule [⟨5, [7]⟩]] ++ [.frontier [(5, -1)]] ++
        [.schedule []]) _ :=
    (((Run.nil.snoc CaptureStep.frontier).snoc (CaptureStep.schedule hfirst hcovered)).snoc
      CaptureStep.frontier).snoc
        (CaptureStep.schedule hlast fun message hmessage => absurd hmessage List.not_mem_nil)
  exact ⟨_, _, hrun, rfl⟩

/-- Two copies of the stream, read in two calls at different speeds. -/
def example_labels : List (ReplayEvent (Unsigned 64) ℕ) :=
  [.schedule [[.progress [(0, -1), (5, 1)]], example_events],
    .schedule [[.messages 5 [7], .progress [(5, -1)]], []]]

/-- What is done to the list of either stream: the first one is read twice, and the second one at once. -/
def example_links : ℕ → List (LinkEvent (Unsigned 64) ℕ)
  | 0 =>
    [.push (.progress [(0, -1), (5, 1)]), .next (some (.progress [(0, -1), (5, 1)])), .next none,
      .push (.messages 5 [7]), .push (.progress [(5, -1)]), .next (some (.messages 5 [7])),
      .next (some (.progress [(5, -1)])), .next none]
  | 1 =>
    example_events.map LinkEvent.push ++ example_events.map (fun event => LinkEvent.next (some event)) ++
      [.next none]
  | _ => []

theorem example_links_run (stream : ℕ) : ∃ list, Run LinkStep EventList.new (example_links stream) list := by
  match stream with
  | 0 =>
    have hfirst : Run LinkStep (EventList.new : EventList (Unsigned 64) ℕ) _ _ :=
      ((Run.nil.snoc (@LinkStep.push _ _ _ (.progress [(0, -1), (5, 1)]))).snoc LinkStep.next).snoc LinkStep.next
    have hmore := (hfirst.snoc (@LinkStep.push _ _ _ (.messages 5 [7]))).snoc
      (@LinkStep.push _ _ _ (.progress [(5, -1)]))
    exact ⟨_, ((hmore.snoc LinkStep.next).snoc LinkStep.next).snoc LinkStep.next⟩
  | 1 =>
    have hpushed : Run LinkStep (EventList.new : EventList (Unsigned 64) ℕ) _ _ :=
      ((Run.nil.snoc (@LinkStep.push _ _ _ (.progress [(0, -1), (5, 1)]))).snoc
        (@LinkStep.push _ _ _ (.messages 5 [7]))).snoc (@LinkStep.push _ _ _ (.progress [(5, -1)]))
    exact ⟨_, (((hpushed.snoc LinkStep.next).snoc LinkStep.next).snoc LinkStep.next).snoc LinkStep.next⟩
  | stream + 2 => exact ⟨_, Run.nil⟩

theorem replay_faithful_example : ∃ replay,
    Faithful [example_events, example_events] example_labels replay ∧
      replay.output.pusher.delivered = [(5, 7), (5, 7)] ∧ replay.capabilities example_labels 5 = 0 := by
  have hrun : Run ReplayStep (Replay.new 2) ([] ++ [example_labels[0]] ++ [example_labels[1]]) _ :=
    (Run.nil.snoc (ReplayStep.schedule rfl)).snoc (ReplayStep.schedule rfl)
  refine ⟨_, (replay_faithful ?_ hrun (read_of_links example_links_run ?_ ?_) :
    Faithful [example_events, example_events] _ _), by decide, by decide⟩
  · intro events hevents
    rcases List.mem_cons.mp hevents with rfl | hrest
    · exact example_events_captured
    · obtain rfl := List.mem_singleton.mp hrest
      exact example_events_captured
  · intro stream events hevents
    match stream with
    | 0 => exact Option.some.inj hevents
    | 1 => exact Option.some.inj hevents
    | stream + 2 => cases hevents
  · intro stream
    match stream with
    | 0 => rfl
    | 1 => rfl
    | stream + 2 => rfl

end Timely
