/-
  Timely/Parking.lean
  ===================
  **A worker that parks, and the threads that wake it** (`timely/src/worker.rs`,
  `timely/src/scheduling/activate.rs`, `communication/src/allocator/counters.rs`,
  `process.rs`, `thread.rs`, `zero_copy/bytes_exchange.rs` and `buzzer.rs`).

  In each call of `step_or_park` a worker receives the events that other threads have
  left in its inboxes, turns them into activations, advances its active paths, and then
  either parks its thread or steps the dataflows that are active.  Other threads put
  something into an inbox first, and unpark the worker afterwards, if at all.  All
  these steps interleave.  A result `none` is a panic, or a step that cannot be taken.
-/
import Timely.Activations
import Timely.Library.Run
import Mathlib.Data.List.AList

set_option linter.unusedSectionVars false

namespace Timely

open Library

namespace Duration

/-- Subtraction that reports a negative result: the nanoseconds may borrow one second. -/
def checked_sub (first second : Duration) : Option Duration :=
  if second.nanos ≤ first.nanos then
    if second.secs.val ≤ first.secs.val then
      some ⟨⟨first.secs.val - second.secs.val, lt_of_le_of_lt (Nat.sub_le _ _) first.secs.isLt⟩,
        first.nanos - second.nanos, lt_of_le_of_lt (Nat.sub_le _ _) first.nanos_lt⟩
    else none
  else if h : second.secs.val < first.secs.val ∧ first.nanos < second.nanos then
    some ⟨⟨first.secs.val - second.secs.val - 1, by
        have hfirst := first.secs.isLt
        omega⟩,
      first.nanos + 1000000000 - second.nanos, by omega⟩
  else none

theorem as_nanos_of_checked_sub {first second rest : Duration}
    (h : checked_sub first second = some rest) : second.as_nanos + rest.as_nanos = first.as_nanos := by
  have hfirst := first.nanos_lt
  have hsecond := second.nanos_lt
  unfold checked_sub at h
  unfold as_nanos
  split_ifs at h with hnanos hsecs hborrow
  · cases h
    change _ + (1000000000 * (first.secs.val - second.secs.val) + (first.nanos - second.nanos)) = _
    omega
  · cases h
    change _ + (1000000000 * (first.secs.val - second.secs.val - 1) +
      (first.nanos + 1000000000 - second.nanos)) = _
    omega

/-- Nothing is subtracted that is longer. -/
theorem exists_checked_sub {first second : Duration} (h : second ≤ first) :
    ∃ rest, checked_sub first second = some rest := by
  rw [le_iff] at h
  have hfirst := first.nanos_lt
  have hsecond := second.nanos_lt
  unfold as_nanos at h
  unfold checked_sub
  split_ifs with hnanos hsecs hborrow
  · exact ⟨_, rfl⟩
  · omega
  · exact ⟨_, rfl⟩
  · omega

end Duration

namespace Activations

/-- Time until the next scheduled event; the result within the option is `None` if there is none. -/
def empty_for (activations : Activations) (elapsed : Duration) : Option (Option Duration) :=
  if activations.bounds ≠ [] then some (some default)
  else
    match activations.queue.peek with
    | none => some none
    | some item =>
      if item.1 < elapsed then some (some default) else (item.1.checked_sub elapsed).map some

/-- The subtraction does not panic.  Nothing is active where there is time, and no moment comes sooner. -/
theorem empty_for_spec (activations : Activations) (elapsed : Duration) :
    ∃ empty_for, activations.empty_for elapsed = some empty_for ∧
      (empty_for ≠ some default → activations.bounds = [] ∧ ∀ item ∈ activations.queue.items,
        ∃ rest, empty_for = some rest ∧ elapsed.as_nanos + rest.as_nanos ≤ item.1.as_nanos) := by
  unfold empty_for
  split_ifs with hbounds
  · exact ⟨_, rfl, fun h => absurd rfl h⟩
  · rw [not_not] at hbounds
    cases hpeek : activations.queue.peek with
    | none =>
      have hitems : activations.queue.items = [] := List.head?_eq_none_iff.mp hpeek
      refine ⟨none, rfl, fun _ => ⟨hbounds, fun item hitem => ?_⟩⟩
      rw [hitems] at hitem
      exact absurd hitem List.not_mem_nil
    | some first =>
      dsimp only
      split_ifs with hlate
      · exact ⟨_, rfl, fun h => absurd rfl h⟩
      · rw [Duration.lt_iff, not_lt, ← Duration.le_iff] at hlate
        obtain ⟨rest, hrest⟩ := Duration.exists_checked_sub hlate
        refine ⟨some rest, by rw [hrest]; rfl, fun _ => ⟨hbounds, fun item hitem => ⟨rest, rfl, ?_⟩⟩⟩
        rw [Duration.as_nanos_of_checked_sub hrest, ← Duration.le_iff]
        obtain ⟨others, hothers⟩ : ∃ others, activations.queue.items = first :: others :=
          List.head?_eq_some_iff.mp hpeek
        have hsorted := activations.queue.sorted
        rw [hothers] at hsorted hitem
        rcases List.mem_cons.mp hitem with rfl | hmem
        · exact le_rfl
        · exact le_of_sooner (List.rel_of_pairwise_cons hsorted hmem)

end Activations

namespace Parking

/-! ### The state -/

/-- How an inbox is read: a channel of counters one by one, a merge queue at once. -/
inductive Kind where
  | counters
  | merge_queue
deriving DecidableEq

/-- Where other threads tell a worker of messages: the channel of each message. -/
structure Inbox where
  kind : Kind
  items : List ℕ
deriving DecidableEq

/-- Where a worker is in `step_or_park`: outside of it; with the next inbox to receive from; with the
    events still to turn into activations; with the active paths to advance; to decide whether to park;
    having decided to (for how long, when, and which paths have been activated since); parked; and with the
    dataflows still to step. -/
inductive Stage where
  | outside
  | receiving (duration : Option Duration) (index : ℕ)
  | responding (duration : Option Duration)
  | advancing (duration : Option Duration)
  | deciding (duration : Option Duration)
  | flushing (delay : Option Duration) (elapsed : Duration) (noted : List (List ℕ))
  | parked (delay : Option Duration) (elapsed : Duration) (noted : List (List ℕ))
  | scheduling (active_dataflows : List ℕ)
deriving DecidableEq

/-- Where another thread is in a call that wakes the worker: in none; with a message in a channel whose
    count is not sent yet; among the activations of a batch; and with only the unparking left. -/
inductive Duty where
  | idle
  | counting (inbox channel : ℕ)
  | batching
  | unparking
deriving DecidableEq

/-- A worker and as many other threads around it.  `token` is the permit that unparking leaves.  For the record:
    the paths that have been presented to their dataflow, and those that have been forgotten because
    their channel or their dataflow is gone. -/
structure State (others : ℕ) where
  inboxes : List Inbox
  events : List ℕ
  paths : AList fun _ : ℕ => List ℕ
  activations : Activations
  dataflows : List ℕ
  stage : Stage
  token : Bool
  threads : Fin others → Duty
  presented : List (List ℕ)
  forgotten : List (List ℕ)

variable {others : ℕ}

/-- A new worker, with inboxes of these kinds. -/
def start (others : ℕ) (kinds : List Kind) : State others where
  inboxes := kinds.map fun kind => ⟨kind, []⟩
  events := []
  paths := ∅
  activations := Activations.new
  dataflows := []
  stage := .outside
  token := false
  threads := fun _ => .idle
  presented := []
  forgotten := []

/-! ### The worker -/

namespace State

/-- The next step of `Allocate::receive`. -/
def receive (state : State others) : Option (State others) :=
  match state.stage with
  | .receiving duration index =>
    match state.inboxes[index]? with
    | none => some { state with stage := .responding duration }
    | some ⟨.counters, []⟩ => some { state with stage := .receiving duration (index + 1) }
    | some ⟨.counters, channel :: items⟩ =>
      some { state with
        inboxes := state.inboxes.set index ⟨.counters, items⟩
        events := state.events ++ [channel] }
    | some ⟨.merge_queue, items⟩ =>
      some { state with
        inboxes := state.inboxes.set index ⟨.merge_queue, []⟩
        events := state.events ++ items
        stage := .receiving duration (index + 1) }
  | _ => none

/-- The events are drained: the paths of their channels are activated, as far as they are known. -/
def respond (state : State others) : Option (State others) :=
  match state.stage with
  | .responding duration =>
    some { state with
      events := []
      activations := (state.events.filterMap state.paths.lookup).foldl Activations.activate state.activations
      stage := .advancing duration }
  | _ => none

/-- The next step of `Activations::advance`: one activation of another thread, or, where there is none,
    all that follows. -/
def advance (state : State others) (now : Duration) : Option (State others) :=
  match state.stage with
  | .advancing duration =>
    match state.activations.rx with
    | path :: rx =>
      some { state with activations := { state.activations with rx := rx }.activate path }
    | [] =>
      some { state with
        activations := state.activations.advance now
        stage := .deciding duration }
  | _ => none

/-- The minimum park duration, where `none` is the absence of a constraint. -/
def park_for (duration empty_for : Option Duration) : Option Duration :=
  match duration, empty_for with
  | some x, some y => some (if x ≤ y then x else y)
  | x, y => x.or y

/-- The worker parks only if it has some dataflows, and there is time. -/
def decide_to_park (state : State others) (elapsed : Duration) : Option (State others) :=
  match state.stage with
  | .deciding duration =>
    (state.activations.empty_for elapsed).map fun empty_for =>
      if state.dataflows ≠ [] ∧ park_for duration empty_for ≠ some default then
        { state with stage := .flushing (park_for duration empty_for) elapsed [] }
      else { state with stage := .scheduling (state.activations.for_extensions []) }
  | _ => none

/-- The worker parks unless there are events. -/
def await_events (state : State others) : Option (State others) :=
  match state.stage with
  | .flushing delay elapsed noted =>
    if state.events = [] then some { state with stage := .parked delay elapsed noted }
    else some { state with stage := .outside }
  | _ => none

/-- The thread returns from being parked: it finds the permit, which it takes; or the time is over, or it
    wakes for no reason. -/
def unpark (state : State others) (permitted : Bool) : Option (State others) :=
  match state.stage with
  | .parked _ _ _ =>
    if permitted then
      if state.token then some { state with token := false, stage := .outside } else none
    else some { state with stage := .outside }
  | _ => none

/-- The clean paths of a dataflow. -/
def paths_of (state : State others) (index : ℕ) : List (List ℕ) :=
  (state.activations.paths.take state.activations.clean).filter fun path =>
    decide (path.head? = some index)

/-- Step the next active dataflow, if it exists; or return. -/
def step_dataflow (state : State others) : Option (State others) :=
  match state.stage with
  | .scheduling [] => some { state with stage := .outside }
  | .scheduling (index :: rest) =>
    if index ∈ state.dataflows then
      some { state with
        presented := state.presented ++ state.paths_of index
        stage := .scheduling rest }
    else
      some { state with
        forgotten := state.forgotten ++ state.paths_of index
        stage := .scheduling rest }
  | _ => none

end State

/-! ### What runs within the worker -/

/-- What operators, log actions and the caller may do to a worker. -/
inductive Act where
  | activate (path : List ℕ)
  | activate_after (path : List ℕ) (delay elapsed : Duration)
  | push (channel : ℕ)
  | insert_path (channel : ℕ) (path : List ℕ)
  | remove_path (channel : ℕ)
  | insert_dataflow (index : ℕ)
  | remove_dataflow (index : ℕ)

namespace Stage

/-- Whether other code than that of `step_or_park` runs. -/
def open_to (stage : Stage) : Bool :=
  match stage with
  | .outside | .flushing _ _ _ | .scheduling _ => true
  | _ => false

/-- Note an activation between the decision to park and parking. -/
def note (path : List ℕ) : Stage → Stage
  | .flushing delay elapsed noted => .flushing delay elapsed (path :: noted)
  | stage => stage

end Stage

/-- One act. -/
def State.act (state : State others) : Act → Option (State others)
  | .activate path =>
    some { state with
      activations := state.activations.activate path
      stage := state.stage.note path }
  | .activate_after path delay elapsed =>
    (state.activations.activate_after path delay elapsed).map fun activations =>
      { state with activations := activations, stage := state.stage.note path }
  | .push channel => some { state with events := state.events ++ [channel] }
  | .insert_path channel path =>
    some { state with
      paths := state.paths.insert channel path
      forgotten := state.forgotten ++ (state.paths.lookup channel).toList }
  | .remove_path channel =>
    some { state with
      paths := state.paths.erase channel
      forgotten := state.forgotten ++ (state.paths.lookup channel).toList }
  | .insert_dataflow index => some { state with dataflows := index :: state.dataflows }
  | .remove_dataflow index => some { state with dataflows := state.dataflows.erase index }

/-! ### Other threads -/

/-- What another thread does next: it puts a message into a channel, and sends the count of it; extends a
    merge queue; activates a path, and comes to the end of a batch (or drops a merge queue); and
    unparks the worker. -/
inductive ThreadAct where
  | push (inbox channel : ℕ)
  | send
  | extend (inbox : ℕ) (items : List ℕ)
  | activate (path : List ℕ)
  | finish
  | unpark

/-- Where the thread is next. -/
def State.set_duty (state : State others) (thread : Fin others) (duty : Duty) : State others :=
  { state with threads := Function.update state.threads thread duty }

/-- One step of another thread.  Extending a queue only signals where the queue was empty. -/
def State.thread_act (state : State others) (thread : Fin others) : ThreadAct → Option (State others)
  | .push inbox channel =>
    if state.threads thread = .idle ∧ (state.inboxes[inbox]?).map Inbox.kind = some .counters then
      some (state.set_duty thread (.counting inbox channel))
    else none
  | .send =>
    match state.threads thread with
    | .counting inbox channel =>
      (state.inboxes[inbox]?).map fun counters =>
        { state with
          inboxes := state.inboxes.set inbox { counters with items := counters.items ++ [channel] } }.set_duty
            thread .unparking
    | _ => none
  | .extend inbox items =>
    if state.threads thread = .idle ∧ (state.inboxes[inbox]?).map Inbox.kind = some .merge_queue then
      (state.inboxes[inbox]?).map fun queue =>
        { state with
          inboxes := state.inboxes.set inbox { queue with items := queue.items ++ items } }.set_duty
            thread (if queue.items = [] ∧ items ≠ [] then .unparking else .idle)
    else none
  | .activate path =>
    if state.threads thread = .idle ∨ state.threads thread = .batching then
      some ({ state with activations := state.activations.sync_activate path }.set_duty thread .batching)
    else none
  | .finish =>
    if state.threads thread = .idle ∨ state.threads thread = .batching then
      some (state.set_duty thread .unparking)
    else none
  | .unpark =>
    if state.threads thread = .unparking then
      some ({ state with token := true }.set_duty thread .idle)
    else none

/-! ### Runs -/

/-- A step of the worker, or of another thread. -/
inductive Event (others : ℕ) where
  | call (duration : Option Duration)
  | receive
  | respond
  | advance (now : Duration)
  | decide_to_park (elapsed : Duration)
  | await_events
  | unpark (permitted : Bool)
  | step_dataflow
  | act (act : Act)
  | thread_act (thread : Fin others) (act : ThreadAct)

/-- Take a step. -/
def State.perform (state : State others) : Event others → Option (State others)
  | .call duration =>
    if state.stage = .outside then some { state with stage := .receiving duration 0 } else none
  | .receive => state.receive
  | .respond => state.respond
  | .advance now => state.advance now
  | .decide_to_park elapsed => state.decide_to_park elapsed
  | .await_events => state.await_events
  | .unpark permitted => state.unpark permitted
  | .step_dataflow => state.step_dataflow
  | .act act => if state.stage.open_to then state.act act else none
  | .thread_act thread act => state.thread_act thread act

/-- A step that is taken. -/
def Step (before : State others) (event : Event others) (after : State others) : Prop := before.perform event = some after

end Parking

end Timely
