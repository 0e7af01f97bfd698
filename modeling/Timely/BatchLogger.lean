/-
  Timely/BatchLogger.lean
  =======================
  **Logging into a stream of events** (`timely/src/logging.rs`, `BatchLogger`).

  The action of a logger turns its calls into a captured stream: each batch is a
  message at the time of the capability that the stream holds, which then moves
  to the time that the action is told.  The capability is dropped with the
  logger.
-/
import Timely.Logging
import Timely.Capture

set_option linter.unusedSectionVars false

namespace Timely

open Library

namespace Logging

open Channels (Vec)

variable {P E A D : Type}

/-- Logs events as a timely stream: the time of its capability, and the events that have been
    pushed. -/
structure BatchLogger (D : Type) where
  time : Duration
  event_pusher : List (Event Duration D)

namespace BatchLogger

/-- Creates a new batch logger. -/
def new : BatchLogger D := ⟨default, []⟩

/-- Publishes a batch of logged events and advances the capability. -/
def publish_batch (logger : BatchLogger D) (time : Duration) (data : Vec D) : BatchLogger D × Vec D :=
  let sent : BatchLogger D × Vec D :=
    if !data.data.isEmpty then
      ({ logger with event_pusher := logger.event_pusher ++ [.messages logger.time data.data] }, data.clear)
    else (logger, data)
  let advanced : BatchLogger D :=
    if sent.1.time < time then
      { sent.1 with event_pusher := sent.1.event_pusher ++ [.progress [(time, 1), (sent.1.time, -1)]] }
    else sent.1
  ({ advanced with time := time }, sent.2)

/-- When the batch logger is dropped it drops its capability. -/
def close (logger : BatchLogger D) : BatchLogger D :=
  { logger with event_pusher := logger.event_pusher ++ [.progress [(logger.time, -1)]] }

instance : Action (BatchLogger D) D where
  act := publish_batch
  close := close

end BatchLogger

/-! ### Calls of an action -/

section Calls

variable [Action P (Duration × E × A)] [Growth P] {logger after : Logger P E A}

/-- What the calls of an action keep, an operation keeps until it drops the action. -/
theorem action_of_perform {Q R : P → Prop}
    (hact : ∀ {action : P} (time : Duration) (data : Vec (Duration × E × A)), Q action →
      Q (Action.act action time data).1)
    (hclose : ∀ {action : P}, Q action → R (Action.close action)) {operation : Operation A}
    (h : Q logger.action) (hperform : perform logger operation = some after) :
    (after.clones ≠ 0 → Q after.action) ∧ (after.clones = 0 → R after.action) := by
  have hevent : ∀ (elapsed : Duration) (logger : Logger P E A) (event : A), Q logger.action →
      Q (logger.log_event elapsed event).action := by
    intro elapsed logger event hbefore
    unfold Logger.log_event
    dsimp only
    split
    · exact hact _ _ hbefore
    · exact hbefore
  have hmany : ∀ (elapsed : Duration) (events : List A) (logger : Logger P E A), Q logger.action →
      Q (events.foldl (Logger.log_event elapsed) logger).action := by
    intro elapsed events
    induction events with
    | nil => exact fun _ hbefore => hbefore
    | cons event events ih => exact fun logger hbefore => ih _ (hevent elapsed logger event hbefore)
  have hflush : ∀ {now : Duration} {after : Logger P E A}, logger.flush now = some after →
      Q after.action := by
    intro now after hflushed
    obtain ⟨elapsed, -, rfl⟩ := Option.map_eq_some_iff.mp hflushed
    split
    · exact hact _ _ h
    · exact hact _ _ h
  obtain ⟨hclones, -, -, hcount⟩ := perform_same hperform
  unfold perform at hperform
  rw [if_neg hclones] at hperform
  cases operation with
  | log now event =>
    obtain ⟨elapsed, -, rfl⟩ := Option.map_eq_some_iff.mp hperform
    exact ⟨fun _ => hmany elapsed [event] logger h, fun hnone => absurd (hcount.symm.trans hnone) hclones⟩
  | log_many now events =>
    obtain ⟨elapsed, -, rfl⟩ := Option.map_eq_some_iff.mp hperform
    exact ⟨fun _ => hmany elapsed events logger h, fun hnone => absurd (hcount.symm.trans hnone) hclones⟩
  | flush now =>
    exact ⟨fun _ => hflush hperform, fun hnone => absurd (hcount.symm.trans hnone) hclones⟩
  | clone =>
    cases hperform
    exact ⟨fun _ => h, fun hnone => absurd hnone (Nat.succ_ne_zero _)⟩
  | drop now =>
    obtain ⟨flushed, hflushed, rfl⟩ := Option.map_eq_some_iff.mp hperform
    have hafter : Q flushed.action ∧ flushed.clones = logger.clones := by
      split at hflushed
      · exact ⟨hflush hflushed, (flush_same hflushed).2.2⟩
      · cases hflushed
        exact ⟨h, rfl⟩
    obtain ⟨hkept, hsame⟩ := hafter
    dsimp only
    by_cases hlast : flushed.clones = 1
    · -- the last clone is dropped
      rw [if_pos hlast]
      exact ⟨fun hsome => absurd (by omega) hsome, fun _ => hclose hkept⟩
    · rw [if_neg hlast]
      exact ⟨fun _ => hkept, fun hnone => by omega⟩

theorem action_of_run {Q R : P → Prop}
    (hact : ∀ {action : P} (time : Duration) (data : Vec (Duration × E × A)), Q action →
      Q (Action.act action time data).1)
    (hclose : ∀ {action : P}, Q action → R (Action.close action)) {operations : List (Operation A)}
    (hclones : logger.clones ≠ 0) (h : Q logger.action) (hrun : operations.foldlM perform logger = some after) :
    (after.clones ≠ 0 → Q after.action) ∧ (after.clones = 0 → R after.action) := by
  induction operations generalizing logger with
  | nil =>
    cases hrun
    exact ⟨fun _ => h, fun hnone => absurd hnone hclones⟩
  | cons operation operations ih =>
    obtain ⟨middle, hperform, hrest⟩ := foldlM_cons_cases hrun
    obtain ⟨hkept, hclosed⟩ := action_of_perform hact hclose h hperform
    by_cases hnone : middle.clones = 0
    · -- nothing can be done with a logger that has been dropped
      cases operations with
      | nil =>
        cases hrest
        exact ⟨hkept, hclosed⟩
      | cons next operations =>
        obtain ⟨_, hnext, -⟩ := foldlM_cons_cases hrest
        exact absurd hnone (perform_same hnext).1
    · exact ih hnone (hkept hnone) hrest

end Calls

/-! ### Streams of one capability -/

/-- The number of capabilities that a stream accumulates. -/
def total (events : List (Event Duration D)) : ℤ :=
  1 + ((events.flatMap Event.changes).map Prod.snd).sum

theorem total_append (first second : List (Event Duration D)) :
    total (first ++ second) = total first + ((second.flatMap Event.changes).map Prod.snd).sum := by
  unfold total
  rw [List.flatMap_append, List.map_append, List.sum_append, add_assoc]

/-- A well-formed stream that never has more than one capability, at the time of each message. -/
structure Supported (events : List (Event Duration D)) : Prop extends WellFormed events where
  at_most_one : ∀ before, before <+: events → ∀ time, Event.accumulated before time ≤ 1
  total : ∀ before, before <+: events → total before = 0 ∨ total before = 1
  supported : ∀ before time data, before ++ [.messages time data] <+: events →
    0 < Event.accumulated before time

theorem supported_nil : Supported ([] : List (Event Duration D)) where
  nonneg before hbefore time := by
    rw [List.prefix_nil.mp hbefore, Event.accumulated_nil]
    split <;> decide
  covered before time data hbefore := absurd (List.prefix_nil.mp hbefore) (by simp)
  at_most_one before hbefore time := by
    rw [List.prefix_nil.mp hbefore, Event.accumulated_nil]
    split <;> decide
  total before hbefore := by
    rw [List.prefix_nil.mp hbefore]
    exact Or.inr rfl
  supported before time data hbefore := absurd (List.prefix_nil.mp hbefore) (by simp)

theorem Supported.snoc {events : List (Event Duration D)} {event : Event Duration D} (h : Supported events)
    (hcounts : ∀ time, Event.accumulated (events ++ [event]) time = 0 ∨
      Event.accumulated (events ++ [event]) time = 1)
    (htotal : Logging.total (events ++ [event]) = 0 ∨ Logging.total (events ++ [event]) = 1)
    (hsupported : ∀ time data, event = .messages time data → 0 < Event.accumulated events time) :
    Supported (events ++ [event]) where
  toWellFormed := by
    refine h.toWellFormed.snoc (fun time => ?_) fun time data heq => ⟨time, le_rfl, hsupported time data heq⟩
    rcases hcounts time with hzero | hone
    · exact hzero.ge
    · rw [hone]
      decide
  at_most_one before hbefore time := by
    rcases List.prefix_concat_iff.mp hbefore with rfl | hinitial
    · rcases hcounts time with hzero | hone
      · rw [hzero]
        decide
      · exact hone.le
    · exact h.at_most_one before hinitial time
  total before hbefore := by
    rcases List.prefix_concat_iff.mp hbefore with rfl | hinitial
    · exact htotal
    · exact h.total before hinitial
  supported before time data hbefore := by
    rcases List.prefix_concat_iff.mp hbefore with heq | hinitial
    · obtain ⟨rfl, hlast⟩ := List.append_inj' heq rfl
      exact hsupported time data (List.singleton_inj.mp hlast).symm
    · exact h.supported before time data hinitial

/-! ### The stream of a batch logger -/

namespace BatchLogger

/-- The stream holds one capability, at the time of the logger. -/
structure Holds (logger : BatchLogger D) : Prop where
  counts : ∀ time, Event.accumulated logger.event_pusher time = if time = logger.time then 1 else 0
  total : Logging.total logger.event_pusher = 1
  supported : Supported logger.event_pusher

theorem holds_new : (new : BatchLogger D).Holds :=
  ⟨Event.accumulated_nil, rfl, supported_nil⟩

variable {logger : BatchLogger D}

theorem Holds.messages (h : logger.Holds) (data : List D) :
    Holds { logger with event_pusher := logger.event_pusher ++ [.messages logger.time data] } := by
  have hcounts : ∀ time, Event.accumulated (logger.event_pusher ++ [.messages logger.time data]) time =
      if time = logger.time then 1 else 0 := by
    intro time
    rw [Event.accumulated_append, h.counts]
    exact add_zero _
  have htotal : Logging.total (logger.event_pusher ++ [.messages logger.time data]) = 1 := by
    rw [total_append, h.total]
    rfl
  refine ⟨hcounts, htotal, h.supported.snoc (fun time => ?_) (Or.inr htotal) ?_⟩
  · rw [hcounts]
    split
    · exact Or.inr rfl
    · exact Or.inl rfl
  · intro time items heq
    cases heq
    rw [h.counts, if_pos rfl]
    decide

/-- Changes of the capability that do not bring in a second one. -/
theorem Holds.progress (h : logger.Holds) (changes : List (Duration × ℤ)) (next : Duration → ℤ)
    (hnext : ∀ time, (if time = logger.time then 1 else 0) + tally changes time = next time)
    (hcounts : ∀ time, next time = 0 ∨ next time = 1)
    (htotal : 1 + (changes.map Prod.snd).sum = 0 ∨ 1 + (changes.map Prod.snd).sum = 1) :
    (∀ time, Event.accumulated (logger.event_pusher ++ [.progress changes]) time = next time) ∧
      Logging.total (logger.event_pusher ++ [.progress changes]) = 1 + (changes.map Prod.snd).sum ∧
      Supported (logger.event_pusher ++ [.progress changes]) := by
  have hall : ∀ time, Event.accumulated (logger.event_pusher ++ [.progress changes]) time = next time := by
    intro time
    rw [Event.accumulated_append, h.counts, ← hnext, List.flatMap_singleton]
    rfl
  have hsum : Logging.total (logger.event_pusher ++ [.progress changes]) = 1 + (changes.map Prod.snd).sum := by
    rw [total_append, h.total, List.flatMap_singleton]
    rfl
  refine ⟨hall, hsum, h.supported.snoc (fun time => ?_) ?_ ?_⟩
  · rw [hall]
    exact hcounts time
  · rw [hsum]
    exact htotal
  · intro time data heq
    cases heq

theorem Holds.publish_batch (h : logger.Holds) {time : Duration} (hle : logger.time ≤ time) (data : Vec D) :
    (logger.publish_batch time data).1.Holds := by
  unfold BatchLogger.publish_batch
  have hsent : ∀ sent : BatchLogger D, sent.Holds → sent.time = logger.time →
      Holds { (if sent.time < time then
        { sent with event_pusher := sent.event_pusher ++ [.progress [(time, 1), (sent.time, -1)]] }
        else sent) with time := time } := by
    intro sent hholds htime
    by_cases hlt : sent.time < time
    · rw [if_pos hlt]
      have hnext : ∀ other, (if other = sent.time then 1 else 0) + tally [(time, 1), (sent.time, -1)] other =
          if other = time then (1 : ℤ) else 0 := by
        intro other
        rw [tally_cons, tally_cons, tally_nil]
        by_cases hnew : other = time
        · have hold : other ≠ sent.time := fun heq => hlt.ne (heq.symm.trans hnew)
          rw [if_neg hold, if_pos hnew.symm, if_neg hold.symm, if_pos hnew]
          rfl
        · rw [if_neg (Ne.symm hnew), if_neg hnew]
          by_cases hold : other = sent.time
          · rw [if_pos hold, if_pos hold.symm]
            rfl
          · rw [if_neg hold, if_neg (Ne.symm hold)]
            rfl
      have hone : ∀ other, (if other = time then (1 : ℤ) else 0) = 0 ∨ (if other = time then (1 : ℤ) else 0) = 1 := by
        intro other
        split
        · exact Or.inr rfl
        · exact Or.inl rfl
      obtain ⟨hcounts, htotal, hsupported⟩ := hholds.progress _ _ hnext hone (Or.inr rfl)
      exact ⟨hcounts, htotal, hsupported⟩
    · rw [if_neg hlt]
      -- the time has not changed
      have heq : sent.time = time := by
        rw [htime] at hlt ⊢
        exact hle.lt_or_eq.resolve_left hlt
      rw [← heq]
      exact hholds
  dsimp only
  split
  · exact hsent _ (h.messages data.data) rfl
  · exact hsent _ h rfl

/-- Without its capability the stream is complete. -/
theorem Holds.close (h : logger.Holds) :
    (∀ time, Event.accumulated logger.close.event_pusher time = 0) ∧
      Logging.total logger.close.event_pusher = 0 ∧ Supported logger.close.event_pusher := by
  refine h.progress [(logger.time, -1)] (fun _ => 0) (fun time => ?_) (fun _ => Or.inl rfl) (Or.inl rfl)
  rw [tally_cons, tally_nil]
  by_cases htime : time = logger.time
  · rw [if_pos htime, if_pos htime.symm]
    rfl
  · rw [if_neg htime, if_neg (Ne.symm htime)]
    rfl

/-- The events that the messages of a stream hold. -/
def logged (events : List (Event Duration D)) : List D := (events.flatMap Event.records).map Prod.snd

theorem logged_append (first second : List (Event Duration D)) :
    logged (first ++ second) = logged first ++ logged second := by
  unfold logged
  rw [List.flatMap_append, List.map_append]

theorem logged_messages (time : Duration) (data : List D) : logged [.messages time data] = data := by
  unfold logged
  rw [List.flatMap_singleton, Event.records, List.map_map]
  exact List.map_id data

theorem logged_publish_batch (logger : BatchLogger D) (time : Duration) (data : Vec D) :
    logged (logger.publish_batch time data).1.event_pusher = logged logger.event_pusher ++ data.data := by
  have hadvanced : ∀ sent : BatchLogger D,
      logged (if sent.time < time then
        { sent with event_pusher := sent.event_pusher ++ [.progress [(time, 1), (sent.time, -1)]] }
        else sent).event_pusher = logged sent.event_pusher := by
    intro sent
    split
    · rw [logged_append]
      exact List.append_nil _
    · rfl
  unfold BatchLogger.publish_batch
  dsimp only
  rw [hadvanced]
  cases hempty : data.data.isEmpty with
  | true =>
    rw [List.isEmpty_iff.mp hempty, List.append_nil]
    rfl
  | false =>
    change logged (logger.event_pusher ++ [.messages logger.time data.data]) = _
    rw [logged_append, logged_messages]

/-- What a batch logger makes of some calls. -/
def publish_all (logger : BatchLogger D) (calls : List (Duration × List D)) : BatchLogger D :=
  calls.foldl (fun logger call => (logger.publish_batch call.1 ⟨call.2, 0⟩).1) logger

theorem publish_batch_capacity (logger : BatchLogger D) (time : Duration) (data : Vec D) :
    (logger.publish_batch time ⟨data.data, 0⟩).1 = (logger.publish_batch time data).1 := by
  unfold BatchLogger.publish_batch
  dsimp only
  split <;> rfl

theorem Holds.publish_all (h : logger.Holds) {calls : List (Duration × List D)}
    (hrecent : ∀ call ∈ calls, logger.time ≤ call.1)
    (hordered : calls.Pairwise fun call later => call.1 ≤ later.1) : (logger.publish_all calls).Holds := by
  induction calls generalizing logger with
  | nil => exact h
  | cons call calls ih =>
    obtain ⟨hlater, hrest⟩ := List.pairwise_cons.mp hordered
    exact ih (h.publish_batch (hrecent call List.mem_cons_self) ⟨call.2, 0⟩) hlater hrest

theorem logged_publish_all (logger : BatchLogger D) (calls : List (Duration × List D)) :
    logged (logger.publish_all calls).event_pusher =
      logged logger.event_pusher ++ calls.flatMap Prod.snd := by
  induction calls generalizing logger with
  | nil => exact (List.append_nil _).symm
  | cons call calls ih =>
    rw [List.flatMap_cons, ← List.append_assoc, ← logged_publish_batch logger call.1 ⟨call.2, 0⟩]
    exact ih _

end BatchLogger

theorem default_le (time : Duration) : (default : Duration) ≤ time := by
  rw [Duration.le_iff, Duration.as_nanos_default]
  exact Nat.zero_le _

/-- The stream of a logger is that of the calls of its action, closed when the logger is dropped. -/
theorem publishes_of_run [Growth (BatchLogger (Duration × E × A))] {id : E} {offset : Duration}
    {operations : List (Operation A)}
    {last : Logger (Recorded (BatchLogger (Duration × E × A)) (Duration × E × A)) E A}
    (hrun : operations.foldlM perform (Logger.recorded id offset BatchLogger.new) = some last) :
    (last.clones ≠ 0 → last.action.action = BatchLogger.new.publish_all last.action.calls) ∧
      (last.clones = 0 → last.action.action = (BatchLogger.new.publish_all last.action.calls).close) := by
  refine action_of_run
    (Q := fun recorded => recorded.action = BatchLogger.new.publish_all recorded.calls)
    (R := fun recorded => recorded.action = (BatchLogger.new.publish_all recorded.calls).close)
    ?_ ?_ Nat.one_ne_zero rfl hrun
  · intro recorded time data hbefore
    change (recorded.action.publish_batch time data).1 =
      BatchLogger.new.publish_all (recorded.calls ++ [(time, data.data)])
    unfold BatchLogger.publish_all
    rw [List.foldl_append, List.foldl_cons, List.foldl_nil, BatchLogger.publish_batch_capacity, hbefore]
    rfl
  · intro recorded hbefore
    exact congrArg BatchLogger.close hbefore

/-! ### The main result -/

/-- Operations on the clones of a logger, with a clock that does not go back.  They return; the action
    is passed each logged event once and in order, all of them when the last clone is dropped,
    and the times it is told bound the events.  The stream of a batch logger is one that can be
    replayed, with one capability, at the time of each message, until the logger is dropped. -/
theorem logging_delivers_once (id : E) (offset : Duration) (operations : List (Operation A))
    (hmonotone : (operations.filterMap Operation.reading).Pairwise fun now later => now ≤ later) :
    (∀ (P : Type) [Action P (Duration × E × A)] [Growth P] (action : P),
      (Possible offset 1 operations → ∃ last,
        operations.foldlM perform (Logger.recorded id offset action) = some last) ∧
      ∀ last, operations.foldlM perform (Logger.recorded id offset action) = some last →
        last.action.calls.flatMap Prod.snd ++ last.buffer.data =
            operations.flatMap (Operation.logged id offset) ∧
          (last.clones = 0 → last.buffer.data = []) ∧ Bounded last.action.calls) ∧
    ∀ [Growth (BatchLogger (Duration × E × A))] last,
      operations.foldlM perform (Logger.recorded id offset BatchLogger.new) = some last →
        BatchLogger.logged last.action.action.event_pusher = last.action.calls.flatMap Prod.snd ∧
          Supported last.action.action.event_pusher ∧
          (last.clones = 0 → total last.action.action.event_pusher = 0 ∧
            ∀ time, Event.accumulated last.action.action.event_pusher time = 0) := by
  have hdelivers : ∀ (P : Type) [Action P (Duration × E × A)] [Growth P] (action : P)
      (last : Logger (Recorded P (Duration × E × A)) E A),
      operations.foldlM perform (Logger.recorded id offset action) = some last →
      ∃ latest, Delivers (operations.flatMap (Operation.logged id offset)) latest last := by
    intro P _ _ action last hrun
    have hnew : Delivers [] default (Logger.recorded id offset action) := delivers_recorded id offset action
    exact hnew.run hmonotone (fun _ _ elapsed _ => default_le elapsed) hrun
  refine ⟨fun P _ _ action => ⟨fun hpossible => exists_run hpossible, fun last hrun => ?_⟩, ?_⟩
  · obtain ⟨latest, h⟩ := hdelivers P action last hrun
    exact ⟨h.records, h.dropped, h.bounded⟩
  · intro _ last hrun
    obtain ⟨latest, h⟩ := hdelivers _ _ last hrun
    have hholds : (BatchLogger.new.publish_all last.action.calls).Holds :=
      BatchLogger.holds_new.publish_all (fun call _ => default_le call.1) (h.bounded.below.imp And.left)
    obtain ⟨hopen, hclosed⟩ := publishes_of_run hrun
    have hlogged := BatchLogger.logged_publish_all BatchLogger.new last.action.calls
    by_cases hclones : last.clones = 0
    · obtain ⟨hcounts, htotal, hsupported⟩ := hholds.close
      rw [hclosed hclones]
      refine ⟨?_, hsupported, fun _ => ⟨htotal, hcounts⟩⟩
      refine Eq.trans ?_ hlogged
      unfold BatchLogger.close
      rw [BatchLogger.logged_append]
      exact List.append_nil _
    · rw [hopen hclones]
      exact ⟨hlogged, hholds.supported, fun hnone => absurd hnone hclones⟩

/-- Vectors that grow to the room that is needed. -/
instance : Growth (BatchLogger (Duration × ℕ × ℕ)) := ⟨fun _ n => n, fun _ _ => le_rfl⟩

theorem example_nanos_lt : 0 < 1000000000 := by decide

def example_time (secs : Unsigned 64) : Duration := ⟨secs, 0, example_nanos_lt⟩

/-- Events of two clones, which are flushed on demand and when the clones are dropped. -/
def example_operations : List (Operation ℕ) :=
  [.log (example_time 1) 7, .clone, .flush (example_time 2), .log_many (example_time 2) [8, 9],
    .drop (example_time 3), .log (example_time 4) 10, .drop (example_time 5)]

theorem example_returns : (example_operations.foldlM perform
    (Logger.recorded 0 (example_time 1) (BatchLogger.new : BatchLogger (Duration × ℕ × ℕ)))).isSome := by
  decide

def example_last : Logger (Recorded (BatchLogger (Duration × ℕ × ℕ)) (Duration × ℕ × ℕ)) ℕ ℕ :=
  (example_operations.foldlM perform (Logger.recorded 0 (example_time 1) BatchLogger.new)).get
    example_returns

theorem logging_delivers_once_example :
    example_last.action.calls.flatMap Prod.snd = [(example_time 2, 0, 7), (example_time 3, 0, 8),
      (example_time 3, 0, 9), (example_time 5, 0, 10)] ∧
    Bounded example_last.action.calls ∧ total example_last.action.action.event_pusher = 0 := by
  have hmonotone : (example_operations.filterMap Operation.reading).Pairwise
      fun now later => now ≤ later := by decide
  obtain ⟨hdelivered, hstream⟩ :=
    logging_delivers_once 0 (example_time 1) example_operations hmonotone
  have hrun := (Option.some_get example_returns).symm
  obtain ⟨hrecords, hdropped, hbounded⟩ := (hdelivered _ _).2 example_last hrun
  have hclones : example_last.clones = 0 := by decide
  rw [hdropped hclones, List.append_nil] at hrecords
  refine ⟨hrecords.trans (by decide), hbounded, ?_⟩
  exact ((hstream example_last hrun).2.2 hclones).1

end Logging

end Timely
