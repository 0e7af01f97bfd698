/-
  Timely/Logging.lean
  ===================
  **Loggers** (`logging/src/lib.rs`, `Logger`).

  The clones of a logger share one buffer and one action.  Events are buffered
  with the time of their logging; when the buffer is full, on demand, and when a
  clone is dropped, they are passed to the action together with a time.  Whatever
  the action does with the buffer, it sees all events once and in order, and the
  times it is told lie between those of the events passed before and after.
-/
import Timely.Channels
import Timely.Duration
import Timely.Library.Run

set_option linter.unusedSectionVars false

namespace Timely

open Library

namespace Logging

open Channels (Vec)

/-- An action on batches of log events: any state with any behaviour.  What it leaves of the vector it
    is lent is up to it, and it may do something when it is dropped. -/
class Action (P : Type) (D : outParam Type) where
  act : P → Duration → Vec D → P × Vec D
  close : P → P

/-- How much room a vector has that grows to some length.  The allocator may give more than it is
    asked for. -/
class Growth (P : Type) where
  capacity : P → ℕ → ℕ
  enough : ∀ (action : P) (n : ℕ), n ≤ capacity action n

variable {P E A D : Type}

/-- A logger: what its clones share, and how many of them there are. -/
structure Logger (P E A : Type) where
  id : E
  offset : Duration
  action : P
  buffer : Vec (Duration × E × A)
  clones : ℕ

/-- Appends an item, to a larger vector if there is no room. -/
def push [Growth P] (action : P) (vec : Vec D) (item : D) : Vec D :=
  if vec.data.length < vec.capacity then ⟨vec.data ++ [item], vec.capacity⟩
  else ⟨vec.data ++ [item], Growth.capacity action (vec.data.length + 1)⟩

/-- Makes room for more items. -/
def reserve [Growth P] (action : P) (vec : Vec D) (additional : ℕ) : Vec D :=
  if vec.capacity - vec.data.length < additional then
    ⟨vec.data, Growth.capacity action (vec.data.length + additional)⟩
  else vec

namespace Logger

/-- Allocates a new shareable logger bound to a write destination. -/
def new [Growth P] (id : E) (offset : Duration) (action : P) : Logger P E A :=
  ⟨id, offset, action, ⟨[], Growth.capacity action 1024⟩, 1⟩

variable [Action P (Duration × E × A)]

/-- Buffer one of the events of `log_many`, and pass the buffer on if it is full then. -/
def log_event [Growth P] (elapsed : Duration) (logger : Logger P E A) (event : A) : Logger P E A :=
  let buffer := push logger.action logger.buffer (elapsed, logger.id, event)
  if buffer.data.length = buffer.capacity then
    let acted := Action.act logger.action elapsed buffer
    let cleared := acted.2.clear
    { logger with
      action := acted.1
      buffer :=
        if cleared.capacity < 1024 then
          reserve acted.1 cleared (cleared.capacity + 1).nextPowerOfTwo
        else cleared }
  else { logger with buffer := buffer }

/-- Logs multiple events.  `none` is an overflow of the time. -/
def log_many [Growth P] (logger : Logger P E A) (now : Duration) (events : List A) :
    Option (Logger P E A) :=
  (now.checked_add logger.offset).map fun elapsed => events.foldl (log_event elapsed) logger

/-- Logs an event. -/
def log [Growth P] (logger : Logger P E A) (now : Duration) (event : A) : Option (Logger P E A) :=
  logger.log_many now [event]

/-- Flushes logged messages and communicates the new minimal timestamp. -/
def flush (logger : Logger P E A) (now : Duration) : Option (Logger P E A) :=
  (now.checked_add logger.offset).map fun elapsed =>
    if !logger.buffer.data.isEmpty then
      let acted := Action.act logger.action elapsed logger.buffer
      { logger with action := acted.1, buffer := acted.2.clear }
    else { logger with action := (Action.act logger.action elapsed ⟨[], 0⟩).1 }

def clone (logger : Logger P E A) : Logger P E A := { logger with clones := logger.clones + 1 }

/-- Drops a clone, which flushes if anything is buffered; the last one drops the action as well. -/
def drop (logger : Logger P E A) (now : Duration) : Option (Logger P E A) :=
  (if !logger.buffer.data.isEmpty then logger.flush now else some logger).map fun flushed =>
    { flushed with
      clones := flushed.clones - 1
      action := if flushed.clones = 1 then Action.close flushed.action else flushed.action }

end Logger

/-! ### Operations -/

/-- What is done with some clone of a logger, with what the clock says then. -/
inductive Operation (A : Type) where
  | log (now : Duration) (event : A)
  | log_many (now : Duration) (events : List A)
  | flush (now : Duration)
  | clone
  | drop (now : Duration)

namespace Operation

/-- The reading of the clock. -/
def reading : Operation A → Option Duration
  | log now _ | log_many now _ | flush now | drop now => some now
  | clone => none

/-- The events logged. -/
def events : Operation A → List A
  | log _ event => [event]
  | log_many _ events => events
  | flush _ | clone | drop _ => []

/-- The events logged, with their times and the identifier. -/
def logged (id : E) (offset : Duration) (operation : Operation A) : List (Duration × E × A) :=
  match operation.reading.bind fun now => now.checked_add offset with
  | some elapsed => operation.events.map fun event => (elapsed, id, event)
  | none => []

/-- How many clones there are afterwards. -/
def clones : Operation A → ℕ → ℕ
  | clone, count => count + 1
  | drop _, count => count - 1
  | log _ _, count | log_many _ _, count | flush _, count => count

end Operation

/-- Performs an operation, for which there must be a clone. -/
def perform [Action P (Duration × E × A)] [Growth P] (logger : Logger P E A) (operation : Operation A) : Option (Logger P E A) :=
  if logger.clones = 0 then none
  else
    match operation with
    | .log now event => logger.log now event
    | .log_many now events => logger.log_many now events
    | .flush now => logger.flush now
    | .clone => some logger.clone
    | .drop now => logger.drop now

/-- There is a clone for each operation, and no time overflows. -/
def Possible (offset : Duration) : ℕ → List (Operation A) → Prop
  | _, [] => True
  | count, operation :: rest =>
    0 < count ∧ (∀ now ∈ operation.reading, (now.checked_add offset).isSome) ∧
      Possible offset (operation.clones count) rest

/-! ### What an action has been told -/

/-- An action, with the times and the batches that it has been passed. -/
structure Recorded (P D : Type) where
  action : P
  calls : List (Duration × List D)

def Recorded.new (action : P) : Recorded P D := ⟨action, []⟩

instance [Action P D] : Action (Recorded P D) D where
  act recorded time data :=
    (⟨(Action.act recorded.action time data).1, recorded.calls ++ [(time, data.data)]⟩,
      (Action.act recorded.action time data).2)
  close recorded := ⟨Action.close recorded.action, recorded.calls⟩

instance [Growth P] : Growth (Recorded P D) where
  capacity recorded n := Growth.capacity recorded.action n
  enough recorded n := Growth.enough recorded.action n

/-- A new logger whose action is recorded. -/
def Logger.recorded [Growth P] (id : E) (offset : Duration) (action : P) :
    Logger (Recorded P (Duration × E × A)) E A :=
  Logger.new id offset (Recorded.new action)

/-- Each time is at least that of all events passed with it, and at most that of every event passed
    later. -/
structure Bounded {B : Type} (calls : List (Duration × List (Duration × B))) : Prop where
  above : ∀ call ∈ calls, ∀ item ∈ call.2, item.1 ≤ call.1
  below : calls.Pairwise fun call later => call.1 ≤ later.1 ∧ ∀ item ∈ later.2, call.1 ≤ item.1

namespace Bounded

variable {B : Type} {calls : List (Duration × List (Duration × B))}

theorem nil : Bounded ([] : List (Duration × List (Duration × B))) :=
  ⟨fun _ hcall => absurd hcall List.not_mem_nil, List.Pairwise.nil⟩

/-- One more call, with a time that is at least all earlier times and those of its events. -/
theorem snoc (h : Bounded calls) {time : Duration} {items : List (Duration × B)}
    (hrecent : ∀ call ∈ calls, call.1 ≤ time)
    (hitems : ∀ item ∈ items, item.1 ≤ time ∧ ∀ call ∈ calls, call.1 ≤ item.1) :
    Bounded (calls ++ [(time, items)]) where
  above call hcall item hitem := by
    rcases List.mem_append.mp hcall with hcall | hcall
    · exact h.above call hcall item hitem
    · obtain rfl := List.mem_singleton.mp hcall
      exact (hitems item hitem).1
  below := by
    refine List.pairwise_append.mpr ⟨h.below, List.pairwise_singleton _ _, ?_⟩
    intro call hcall later hlater
    obtain rfl := List.mem_singleton.mp hlater
    exact ⟨hrecent call hcall, fun item hitem => (hitems item hitem).2 call hcall⟩

end Bounded

/-! ### What each operation keeps -/

section Delivery

variable [Action P (Duration × E × A)] [Growth P]

/-- All events logged so far have been passed to the action or are still buffered, in order; nothing
    is later than the time given. -/
structure Delivers (logged : List (Duration × E × A)) (latest : Duration)
    (logger : Logger (Recorded P (Duration × E × A)) E A) : Prop where
  records : logger.action.calls.flatMap Prod.snd ++ logger.buffer.data = logged
  bounded : Bounded logger.action.calls
  recent : ∀ call ∈ logger.action.calls, call.1 ≤ latest
  buffered : ∀ item ∈ logger.buffer.data, item.1 ≤ latest ∧
    ∀ call ∈ logger.action.calls, call.1 ≤ item.1
  dropped : logger.clones = 0 → logger.buffer.data = []

variable {logged : List (Duration × E × A)} {latest elapsed : Duration}
  {logger after : Logger (Recorded P (Duration × E × A)) E A}

theorem delivers_recorded (id : E) (offset : Duration) (action : P) :
    Delivers [] latest (Logger.recorded id offset action : Logger (Recorded P (Duration × E × A)) E A) :=
  ⟨rfl, Bounded.nil, fun _ hcall => absurd hcall List.not_mem_nil,
    fun _ hitem => absurd hitem List.not_mem_nil, fun _ => rfl⟩

namespace Delivers

theorem mono (h : Delivers logged latest logger) (hle : latest ≤ elapsed) :
    Delivers logged elapsed logger :=
  ⟨h.records, h.bounded, fun call hcall => (h.recent call hcall).trans hle,
    fun item hitem => ⟨(h.buffered item hitem).1.trans hle, (h.buffered item hitem).2⟩, h.dropped⟩

/-- All that is buffered is passed to the action with the latest time. -/
theorem passed (h : Delivers logged latest logger)
    (hcalls : after.action.calls = logger.action.calls ++ [(latest, logger.buffer.data)])
    (hbuffer : after.buffer.data = []) : Delivers logged latest after where
  records := by
    rw [hcalls, hbuffer, List.flatMap_append, List.flatMap_singleton, List.append_nil]
    exact h.records
  bounded := by
    rw [hcalls]
    exact h.bounded.snoc h.recent h.buffered
  recent call hcall := by
    rw [hcalls] at hcall
    rcases List.mem_append.mp hcall with hcall | hcall
    · exact h.recent call hcall
    · rw [List.mem_singleton.mp hcall]
  buffered item hitem := by
    rw [hbuffer] at hitem
    cases hitem
  dropped _ := hbuffer

/-- An event of the latest time is buffered. -/
theorem pushed (h : Delivers logged latest logger) {item : Duration × E × A} (htime : item.1 = latest)
    (hcalls : after.action.calls = logger.action.calls)
    (hbuffer : after.buffer.data = logger.buffer.data ++ [item]) (hclones : after.clones ≠ 0) :
    Delivers (logged ++ [item]) latest after where
  records := by
    rw [hcalls, hbuffer, ← List.append_assoc, h.records]
  bounded := by
    rw [hcalls]
    exact h.bounded
  recent := by
    rw [hcalls]
    exact h.recent
  buffered other hother := by
    rw [hcalls]
    rw [hbuffer] at hother
    rcases List.mem_append.mp hother with hother | hother
    · exact h.buffered other hother
    · obtain rfl := List.mem_singleton.mp hother
      rw [htime]
      exact ⟨le_rfl, h.recent⟩
  dropped hnone := absurd hnone hclones

theorem push_data (action : P) (vec : Vec D) (item : D) : (push action vec item).data = vec.data ++ [item] := by
  unfold push
  split <;> rfl

theorem reserve_data (action : P) (vec : Vec D) (additional : ℕ) :
    (reserve action vec additional).data = vec.data := by
  unfold reserve
  split <;> rfl

theorem log_event (h : Delivers logged latest logger) (hclones : logger.clones ≠ 0) (event : A) :
    Delivers (logged ++ [(latest, logger.id, event)]) latest (logger.log_event latest event) := by
  have hpushed : Delivers (logged ++ [(latest, logger.id, event)]) latest
      { logger with buffer := push logger.action logger.buffer (latest, logger.id, event) } :=
    h.pushed rfl rfl (push_data _ _ _) hclones
  unfold Logger.log_event
  dsimp only
  split
  case isTrue hfull =>
    refine hpushed.passed rfl ?_
    dsimp only
    split
    · rw [reserve_data]
      rfl
    · rfl
  case isFalse => exact hpushed

/-- Nothing but the action and the buffer changes. -/
theorem log_event_same (elapsed : Duration) (logger : Logger P E A) (event : A) :
    (logger.log_event elapsed event).id = logger.id ∧
      (logger.log_event elapsed event).offset = logger.offset ∧
      (logger.log_event elapsed event).clones = logger.clones := by
  unfold Logger.log_event
  dsimp only
  split <;> exact ⟨rfl, rfl, rfl⟩

theorem foldl_log_event (h : Delivers logged latest logger) (hclones : logger.clones ≠ 0)
    (events : List A) :
    Delivers (logged ++ events.map fun event => (latest, logger.id, event)) latest
        (events.foldl (Logger.log_event latest) logger) := by
  induction events generalizing logged logger with
  | nil =>
    rw [List.map_nil, List.append_nil]
    exact h
  | cons event events ih =>
    obtain ⟨hid, -, hcount⟩ := log_event_same latest logger event
    have hrest := ih (h.log_event hclones event) (by rwa [hcount])
    rw [hid, List.append_assoc, List.singleton_append] at hrest
    exact hrest

theorem flush {now : Duration} (h : Delivers logged latest logger)
    (hlater : ∀ elapsed, now.checked_add logger.offset = some elapsed → latest ≤ elapsed)
    (hflush : logger.flush now = some after) :
    after.buffer.data = [] ∧
      ∃ elapsed, now.checked_add logger.offset = some elapsed ∧ Delivers logged elapsed after := by
  obtain ⟨elapsed, helapsed, rfl⟩ := Option.map_eq_some_iff.mp hflush
  have hmono := h.mono (hlater elapsed helapsed)
  cases hempty : logger.buffer.data.isEmpty with
  | true =>
    have hnil := List.isEmpty_iff.mp hempty
    refine ⟨hnil, elapsed, helapsed, hmono.passed ?_ hnil⟩
    rw [hnil]
    rfl
  | false => exact ⟨rfl, elapsed, helapsed, hmono.passed rfl rfl⟩

end Delivers

theorem flush_same {logger after : Logger P E A} {now : Duration} (h : logger.flush now = some after) :
    after.id = logger.id ∧ after.offset = logger.offset ∧ after.clones = logger.clones := by
  obtain ⟨elapsed, -, rfl⟩ := Option.map_eq_some_iff.mp h
  split <;> exact ⟨rfl, rfl, rfl⟩

theorem log_many_same {logger after : Logger P E A} {now : Duration} {events : List A}
    (h : logger.log_many now events = some after) :
    after.id = logger.id ∧ after.offset = logger.offset ∧ after.clones = logger.clones := by
  obtain ⟨elapsed, -, rfl⟩ := Option.map_eq_some_iff.mp h
  clear h
  induction events generalizing logger with
  | nil => exact ⟨rfl, rfl, rfl⟩
  | cons event events ih =>
    obtain ⟨hid, hoffset, hclones⟩ := Delivers.log_event_same elapsed logger event
    obtain ⟨hid', hoffset', hclones'⟩ := @ih (logger.log_event elapsed event)
    exact ⟨hid'.trans hid, hoffset'.trans hoffset, hclones'.trans hclones⟩

/-- Operations keep the identifier and the offset, and count the clones. -/
theorem perform_same {logger after : Logger P E A} {operation : Operation A}
    (h : perform logger operation = some after) :
    logger.clones ≠ 0 ∧ after.id = logger.id ∧ after.offset = logger.offset ∧
      after.clones = operation.clones logger.clones := by
  unfold perform at h
  split at h
  case isTrue => cases h
  case isFalse hclones =>
    refine ⟨hclones, ?_⟩
    cases operation with
    | log now event => exact log_many_same h
    | log_many now events => exact log_many_same h
    | flush now => exact flush_same h
    | clone =>
      cases h
      exact ⟨rfl, rfl, rfl⟩
    | drop now =>
      obtain ⟨flushed, hflushed, rfl⟩ := Option.map_eq_some_iff.mp h
      split at hflushed
      · obtain ⟨hid, hoffset, hcount⟩ := flush_same hflushed
        exact ⟨hid, hoffset, congrArg (· - 1) hcount⟩
      · cases hflushed
        exact ⟨rfl, rfl, rfl⟩

theorem logged_of_events_nil {operation : Operation A} (h : operation.events = []) (id : E)
    (offset : Duration) : operation.logged id offset = [] := by
  unfold Operation.logged
  rw [h]
  split <;> rfl

theorem logged_of_reading {operation : Operation A} {now : Duration} (hnow : operation.reading = some now)
    {offset : Duration} (helapsed : now.checked_add offset = some elapsed) (id : E) :
    operation.logged id offset = operation.events.map fun event => (elapsed, id, event) := by
  unfold Operation.logged
  rw [hnow, Option.bind_some, helapsed]

/-- Every operation delivers, with the latest time that it reads. -/
theorem Delivers.perform {operation : Operation A} (h : Delivers logged latest logger)
    (hlater : ∀ now ∈ operation.reading, ∀ elapsed, now.checked_add logger.offset = some elapsed →
      latest ≤ elapsed)
    (hperform : Logging.perform logger operation = some after) :
    ∃ next, Delivers (logged ++ operation.logged logger.id logger.offset) next after ∧
      (next = latest ∨ ∃ now ∈ operation.reading, now.checked_add logger.offset = some next) := by
  obtain ⟨hclones, -⟩ := perform_same hperform
  unfold Logging.perform at hperform
  rw [if_neg hclones] at hperform
  have hlogs : ∀ {now : Duration} {events : List A}, operation.reading = some now →
      operation.events = events → logger.log_many now events = some after →
      ∃ next, Delivers (logged ++ operation.logged logger.id logger.offset) next after ∧
        (next = latest ∨ ∃ now ∈ operation.reading, now.checked_add logger.offset = some next) := by
    intro now events hnow hevents hlog
    obtain ⟨elapsed, helapsed, rfl⟩ := Option.map_eq_some_iff.mp hlog
    refine ⟨elapsed, ?_, Or.inr ⟨now, hnow, helapsed⟩⟩
    rw [logged_of_reading hnow helapsed, hevents]
    exact (h.mono (hlater now hnow elapsed helapsed)).foldl_log_event hclones events
  cases operation with
  | log now event => exact hlogs rfl rfl hperform
  | log_many now events => exact hlogs rfl rfl hperform
  | flush now =>
    obtain ⟨-, elapsed, helapsed, hdelivers⟩ := h.flush (hlater now rfl) hperform
    refine ⟨elapsed, ?_, Or.inr ⟨now, rfl, helapsed⟩⟩
    rw [logged_of_events_nil rfl, List.append_nil]
    exact hdelivers
  | clone =>
    cases hperform
    refine ⟨latest, ?_, Or.inl rfl⟩
    rw [logged_of_events_nil rfl, List.append_nil]
    exact ⟨h.records, h.bounded, h.recent, h.buffered, fun hnone => absurd hnone (Nat.succ_ne_zero _)⟩
  | drop now =>
    rw [logged_of_events_nil rfl, List.append_nil]
    obtain ⟨flushed, hflushed, rfl⟩ := Option.map_eq_some_iff.mp hperform
    -- dropping the action as well passes nothing to it
    have hdropped : ∀ {time : Duration} {flushed : Logger (Recorded P (Duration × E × A)) E A},
        Delivers logged time flushed → flushed.buffer.data = [] →
        Delivers logged time
          { flushed with
            clones := flushed.clones - 1
            action := if flushed.clones = 1 then Action.close flushed.action else flushed.action } := by
      intro time flushed hbefore hnil
      have hcalls : (if flushed.clones = 1 then Action.close flushed.action else flushed.action).calls =
          flushed.action.calls := by
        split <;> rfl
      refine ⟨?_, ?_, ?_, ?_, fun _ => hnil⟩
      · dsimp only
        rw [hcalls]
        exact hbefore.records
      · dsimp only
        rw [hcalls]
        exact hbefore.bounded
      · dsimp only
        rw [hcalls]
        exact hbefore.recent
      · dsimp only
        rw [hcalls]
        exact hbefore.buffered
    split at hflushed
    case isTrue =>
      obtain ⟨hnil, elapsed, helapsed, hdelivers⟩ := h.flush (hlater now rfl) hflushed
      exact ⟨elapsed, hdropped hdelivers hnil, Or.inr ⟨now, rfl, helapsed⟩⟩
    case isFalse hempty =>
      cases hflushed
      exact ⟨latest, hdropped h (by simpa using hempty), Or.inl rfl⟩

/-! ### Runs -/

theorem checked_add_mono {now later sum sum' offset : Duration} (hle : now ≤ later)
    (h : now.checked_add offset = some sum) (h' : later.checked_add offset = some sum') : sum ≤ sum' := by
  rw [Duration.checked_add_eq_some] at h h'
  rw [Duration.le_iff] at hle ⊢
  omega

/-- A run delivers, if the clock does not go back. -/
theorem Delivers.run {operations : List (Operation A)} (h : Delivers logged latest logger)
    (hmonotone : (operations.filterMap Operation.reading).Pairwise fun now later => now ≤ later)
    (hlater : ∀ now ∈ operations.filterMap Operation.reading, ∀ elapsed,
      now.checked_add logger.offset = some elapsed → latest ≤ elapsed)
    (hrun : operations.foldlM Logging.perform logger = some after) :
    ∃ next, Delivers (logged ++ operations.flatMap (Operation.logged logger.id logger.offset)) next after := by
  induction operations generalizing logged latest logger with
  | nil =>
    cases hrun
    rw [List.flatMap_nil, List.append_nil]
    exact ⟨latest, h⟩
  | cons operation operations ih =>
    obtain ⟨middle, hperform, hrest⟩ := foldlM_cons_cases hrun
    obtain ⟨-, hid, hoffset, -⟩ := perform_same hperform
    have hsplit : (operation :: operations).filterMap Operation.reading =
        operation.reading.toList ++ operations.filterMap Operation.reading := by
      cases hreading : operation.reading with
      | none => rw [List.filterMap_cons_none hreading]; rfl
      | some now => rw [List.filterMap_cons_some hreading]; rfl
    rw [hsplit] at hmonotone hlater
    obtain ⟨-, htail, hbetween⟩ := List.pairwise_append.mp hmonotone
    obtain ⟨next, hnext, hcases⟩ := h.perform (fun now hnow => hlater now
      (List.mem_append_left _ (Option.mem_toList.mpr hnow))) hperform
    rw [← hid, ← hoffset] at hnext ⊢
    rw [List.flatMap_cons, ← List.append_assoc]
    refine ih hnext htail ?_ hrest
    intro later hmem elapsed helapsed
    rw [hoffset] at helapsed
    rcases hcases with rfl | ⟨now, hnow, hsum⟩
    · exact hlater later (List.mem_append_right _ hmem) elapsed helapsed
    · exact checked_add_mono (hbetween now (Option.mem_toList.mpr hnow) later hmem) hsum helapsed

theorem exists_perform {operation : Operation A} {logger : Logger P E A} (hclones : 0 < logger.clones)
    (hsums : ∀ now ∈ operation.reading, (now.checked_add logger.offset).isSome) :
    ∃ after, perform logger operation = some after := by
  unfold perform
  rw [if_neg hclones.ne']
  cases operation with
  | log now event =>
    obtain ⟨elapsed, helapsed⟩ := Option.isSome_iff_exists.mp (hsums now rfl)
    exact ⟨_, Option.map_eq_some_iff.mpr ⟨elapsed, helapsed, rfl⟩⟩
  | log_many now events =>
    obtain ⟨elapsed, helapsed⟩ := Option.isSome_iff_exists.mp (hsums now rfl)
    exact ⟨_, Option.map_eq_some_iff.mpr ⟨elapsed, helapsed, rfl⟩⟩
  | flush now =>
    obtain ⟨elapsed, helapsed⟩ := Option.isSome_iff_exists.mp (hsums now rfl)
    exact ⟨_, Option.map_eq_some_iff.mpr ⟨elapsed, helapsed, rfl⟩⟩
  | clone => exact ⟨_, rfl⟩
  | drop now =>
    obtain ⟨elapsed, helapsed⟩ := Option.isSome_iff_exists.mp (hsums now rfl)
    change ∃ after, logger.drop now = some after
    unfold Logger.drop
    split
    · exact ⟨_, Option.map_eq_some_iff.mpr ⟨_, Option.map_eq_some_iff.mpr ⟨elapsed, helapsed, rfl⟩, rfl⟩⟩
    · exact ⟨_, rfl⟩

/-- Operations on clones that there are return, unless a time overflows. -/
theorem exists_run {operations : List (Operation A)} {logger : Logger P E A}
    (h : Possible logger.offset logger.clones operations) :
    ∃ last, operations.foldlM perform logger = some last := by
  induction operations generalizing logger with
  | nil => exact ⟨logger, rfl⟩
  | cons operation operations ih =>
    obtain ⟨hclones, hsums, hrest⟩ := h
    obtain ⟨after, hafter⟩ := exists_perform hclones hsums
    obtain ⟨-, -, hoffset, hcount⟩ := perform_same hafter
    rw [← hoffset, ← hcount] at hrest
    obtain ⟨last, hlast⟩ := ih hrest
    refine ⟨last, ?_⟩
    rw [List.foldlM_cons, hafter]
    exact hlast

end Delivery

end Logging

end Timely
