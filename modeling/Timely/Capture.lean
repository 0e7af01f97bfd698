/-
  Timely/Capture.lean
  ===================
  **Capturing a stream** (`timely/src/dataflow/operators/capture/event.rs` and `capture.rs`).

  A captured stream is a sequence of events: frontier changes and messages.  It
  starts out with one capability at the minimum, and what the events add to it is
  at all times the frontier that the capturing operator has been told of.
-/
import Timely.Pushers
import Timely.Timestamp
import Timely.Library.Run

set_option linter.unusedSectionVars false

namespace Timely

open Library

/-- Data and progress events of the captured stream. -/
inductive Event (T D : Type) where
  | progress (changes : List (T × ℤ))
  | messages (time : T) (data : List D)

namespace Event

variable {T D : Type}

/-- The changes that an event reports. -/
def changes : Event T D → List (T × ℤ)
  | .progress changes => changes
  | .messages _ _ => []

/-- The records that an event holds, with their times. -/
def records : Event T D → List (T × D)
  | .progress _ => []
  | .messages time data => data.map fun item => (time, item)

end Event

/-! ### Linked lists of events -/

/-- An event, if one exists, and a reference to the next element, if it exists. -/
structure EventLink (T D : Type) where
  event : Option (Event T D)
  next : Option ℕ

/-- The elements of a linked list, which references index, with the references held by the
    pusher and by the iterator. -/
structure EventList (T D : Type) where
  links : List (EventLink T D)
  pusher : ℕ
  iterator : ℕ

namespace EventList

variable {T D : Type}

/-- Allocates a new `EventLink`, which pusher and iterator share. -/
def new : EventList T D := ⟨[⟨none, none⟩], 0, 0⟩

/-- Append an element, and move the pusher to it. -/
def push (list : EventList T D) (event : Event T D) : EventList T D :=
  { list with
    links := (list.links.modify list.pusher fun link => { link with next := some list.links.length }) ++
      [⟨some event, none⟩]
    pusher := list.links.length }

/-- Move the iterator to the next element, if there is one, and return its event. -/
def next (list : EventList T D) : Option (Event T D) × EventList T D :=
  match (list.links[list.iterator]?).bind EventLink.next with
  | some next =>
    ((list.links[next]?).bind EventLink.event, { list with iterator := next })
  | none => (none, list)

/-- The events on the way from one element to another. -/
def Holds (links : List (EventLink T D)) (start last : ℕ) : List (Event T D) → Prop
  | [] => start = last ∧ (links[start]?).bind EventLink.next = none ∧ start < links.length
  | event :: events =>
    ∃ next, (links[start]?).bind EventLink.next = some next ∧
      (links[next]?).bind EventLink.event = some event ∧ Holds links next last events

theorem holds_new : Holds (new : EventList T D).links (new : EventList T D).iterator
    (new : EventList T D).pusher [] := ⟨rfl, rfl, Nat.zero_lt_one⟩

theorem Holds.next_last {links : List (EventLink T D)} {start last : ℕ} {events : List (Event T D)}
    (h : Holds links start last events) :
    (links[last]?).bind EventLink.next = none ∧ last < links.length := by
  induction events generalizing start with
  | nil =>
    obtain ⟨rfl, hnone, hlength⟩ := h
    exact ⟨hnone, hlength⟩
  | cons event events ih =>
    obtain ⟨next, _, _, hrest⟩ := h
    exact ih hrest

/-- A pushed event comes last. -/
theorem Holds.push {list : EventList T D} {start : ℕ} {events : List (Event T D)}
    (h : Holds list.links start list.pusher events) (event : Event T D) :
    Holds (list.push event).links start (list.push event).pusher (events ++ [event]) := by
  obtain ⟨hnone, hlength⟩ := h.next_last
  have hfresh : ((list.push event).links[list.links.length]?) = some ⟨some event, none⟩ := by
    simp [EventList.push]
  have hold : ∀ index, index ≠ list.pusher → index < list.links.length →
      (list.push event).links[index]? = list.links[index]? := by
    intro index hindex hbound
    unfold EventList.push
    rw [List.getElem?_append_left (by rwa [List.length_modify])]
    exact List.getElem?_modify_ne _ _ (Ne.symm hindex)
  have hpusher : ((list.push event).links[list.pusher]?).bind EventLink.next = some list.links.length := by
    unfold EventList.push
    rw [List.getElem?_append_left (by rwa [List.length_modify]), List.getElem?_modify_eq,
      List.getElem?_eq_getElem hlength]
    rfl
  have hevent : ∀ index, index < list.links.length →
      ((list.push event).links[index]?).bind EventLink.event =
        (list.links[index]?).bind EventLink.event := by
    intro index hbound
    by_cases hindex : index = list.pusher
    · subst hindex
      unfold EventList.push
      rw [List.getElem?_append_left (by rwa [List.length_modify]), List.getElem?_modify_eq,
        List.getElem?_eq_getElem hlength]
      rfl
    · rw [hold index hindex hbound]
  induction events generalizing start with
  | nil =>
    obtain ⟨rfl, -, -⟩ := h
    refine ⟨list.links.length, hpusher, ?_, rfl, ?_, ?_⟩
    · rw [hfresh]
      rfl
    · rw [hfresh]
      rfl
    · simp [EventList.push]
  | cons first events ih =>
    obtain ⟨next, hnext, hfirst, hrest⟩ := h
    have hne : start ≠ list.pusher := by
      rintro rfl
      rw [hnone] at hnext
      cases hnext
    have hbound : ∀ {index : ℕ} {A : Type} {view : EventLink T D → Option A} {value : A},
        (list.links[index]?).bind view = some value → index < list.links.length := by
      intro index A view value hsome
      obtain ⟨link, hlink, -⟩ := Option.bind_eq_some_iff.mp hsome
      exact (List.getElem?_eq_some_iff.mp hlink).1
    refine ⟨next, ?_, ?_, ih hrest⟩
    · rw [hold start hne (hbound hnext)]
      exact hnext
    · rw [hevent next (hbound hfirst)]
      exact hfirst

/-- The iterator returns the first event it has not returned yet. -/
theorem Holds.next {list : EventList T D} {events : List (Event T D)}
    (h : Holds list.links list.iterator list.pusher events) :
    list.next.1 = events.head? ∧
      Holds list.next.2.links list.next.2.iterator list.next.2.pusher events.tail := by
  cases events with
  | nil =>
    have hnone := h.2.1
    unfold EventList.next
    rw [hnone]
    exact ⟨rfl, h⟩
  | cons event events =>
    obtain ⟨next, hnext, hevent, hrest⟩ := h
    unfold EventList.next
    rw [hnext]
    exact ⟨hevent, hrest⟩

end EventList

/-- What is done to a linked list. -/
inductive LinkEvent (T D : Type) where
  | push (event : Event T D)
  | next (returned : Option (Event T D))

namespace LinkEvent

variable {T D : Type}

def pushed : LinkEvent T D → List (Event T D)
  | .push event => [event]
  | .next _ => []

def returned : LinkEvent T D → List (Event T D)
  | .push _ => []
  | .next returned => returned.toList

end LinkEvent

inductive LinkStep {T D : Type} : EventList T D → LinkEvent T D → EventList T D → Prop
  | push {list : EventList T D} {event : Event T D} : LinkStep list (.push event) (list.push event)
  | next {list : EventList T D} : LinkStep list (.next list.next.1) list.next.2

/-- However pushes and reads take turns, the iterator returns the events in the order in which
    they were pushed. -/
theorem returned_prefix {T D : Type} {events : List (LinkEvent T D)} {list : EventList T D}
    (hrun : Run LinkStep EventList.new events list) :
    events.flatMap LinkEvent.returned <+: events.flatMap LinkEvent.pushed := by
  have hholds : ∃ waiting, EventList.Holds list.links list.iterator list.pusher waiting ∧
      events.flatMap LinkEvent.returned ++ waiting = events.flatMap LinkEvent.pushed := by
    refine hrun.invariant (P := fun events list => ∃ waiting,
      EventList.Holds list.links list.iterator list.pusher waiting ∧
        events.flatMap LinkEvent.returned ++ waiting = events.flatMap LinkEvent.pushed)
      ⟨[], EventList.holds_new, rfl⟩ ?_
    rintro events before label after ⟨waiting, hwaiting, hevents⟩ hstep
    cases hstep with
    | @push event =>
      refine ⟨waiting ++ [event], hwaiting.push event, ?_⟩
      simp only [List.flatMap_append, List.flatMap_singleton, LinkEvent.returned, LinkEvent.pushed,
        List.append_nil, ← hevents, List.append_assoc]
    | next =>
      obtain ⟨hreturned, hrest⟩ := hwaiting.next
      refine ⟨waiting.tail, hrest, ?_⟩
      rw [hreturned]
      simp only [List.flatMap_append, List.flatMap_singleton, LinkEvent.returned, LinkEvent.pushed,
        List.append_nil, ← hevents, List.append_assoc]
      cases waiting <;> rfl
  obtain ⟨waiting, -, hevents⟩ := hholds
  exact ⟨waiting, hevents⟩

/-! ### The capturing operator -/

/-- The state of the operator: the frontier changes and consumed counts that it shares with its
    parent, the counts of its puller, and the events it has pushed. -/
structure Capture (T D : Type) [Ord T] where
  started : Bool
  frontiers : ChangeBatch T
  consumed : ChangeBatch T
  consumeds : ChangeBatch T
  pushed : List (Event T D)

variable {T D : Type} [PartialOrder T] [DecidableEq T] [Ord T] [LinearExtension T] [Timestamp T]

namespace Capture

def new : Capture T D := ⟨false, ChangeBatch.new, ChangeBatch.new, ChangeBatch.new, []⟩

/-- Discard the initial capability. -/
def start (capture : Capture T D) : Capture T D :=
  if capture.started then capture
  else
    { capture with
      frontiers := capture.frontiers.update Timestamp.minimum (-1)
      started := true }

/-- Transmit any frontier progress. -/
def transmit (capture : Capture T D) : Capture T D :=
  if capture.frontiers.is_empty.1 then { capture with frontiers := capture.frontiers.is_empty.2 }
  else
    { capture with
      pushed := capture.pushed ++ [.progress capture.frontiers.is_empty.2.into_inner]
      frontiers := ChangeBatch.new }

/-- Turn one received message into an event. -/
def receive (capture : Capture T D) (message : Message T D) : Capture T D :=
  { capture with
    consumed := capture.consumed.update message.time message.data.length
    pushed := capture.pushed ++ [.messages message.time message.data] }

/-- Schedule the operator, with the messages that its input yields: the first empty one ends
    the loop. -/
def schedule (capture : Capture T D) (input : List (Message T D)) : Capture T D :=
  let received := (input.takeWhile fun message => !message.data.isEmpty).foldl receive
    capture.start.transmit
  { received with
    consumed := (received.consumed.drain_into received.consumeds).1
    consumeds := (received.consumed.drain_into received.consumeds).2 }

end Capture

/-! ### Captured streams -/

/-- A capturing operator, with all frontier changes that it has been told of. -/
structure CaptureSite (T D : Type) [Ord T] where
  capture : Capture T D
  told : List (T × ℤ)

inductive CaptureEvent (T D : Type) where
  | frontier (changes : List (T × ℤ))
  | schedule (input : List (Message T D))

/-- The steps of a capturing operator.  When it is scheduled no count of its frontier is negative,
    and the messages that it receives are at times in advance of its frontier. -/
inductive CaptureStep : CaptureSite T D → CaptureEvent T D → CaptureSite T D → Prop
  | frontier {site : CaptureSite T D} {changes : List (T × ℤ)} :
      CaptureStep site (.frontier changes)
        { capture := { site.capture with frontiers := site.capture.frontiers.extend changes }
          told := site.told ++ changes }
  | schedule {site : CaptureSite T D} {input : List (Message T D)} :
      (∀ time, 0 ≤ tally site.told time) →
      (∀ message ∈ input, ∃ time, time ≤ message.time ∧ 0 < tally site.told time) →
      CaptureStep site (.schedule input) { site with capture := site.capture.schedule input }

/-- A stream of events as a capturing operator may have written it. -/
def Captured (events : List (Event T D)) : Prop :=
  ∃ labels site, Run CaptureStep (⟨Capture.new, []⟩ : CaptureSite T D) labels site ∧
    site.capture.pushed = events

/-- The counts that a stream accumulates, from one initial capability. -/
def Event.accumulated (events : List (Event T D)) (time : T) : ℤ :=
  (if time = Timestamp.minimum then 1 else 0) + tally (events.flatMap Event.changes) time

@[simp] theorem Event.accumulated_append (first second : List (Event T D)) (time : T) :
    Event.accumulated (first ++ second) time = Event.accumulated first time + tally (second.flatMap Event.changes) time := by
  unfold accumulated
  rw [List.flatMap_append, tally_append, add_assoc]

/-- No accumulated count is ever negative, and each message is in advance of one that is positive. -/
structure WellFormed (events : List (Event T D)) : Prop where
  nonneg : ∀ before, before <+: events → ∀ time, 0 ≤ Event.accumulated before time
  covered : ∀ before time data, before ++ [.messages time data] <+: events →
    ∃ least, least ≤ time ∧ 0 < Event.accumulated before least

theorem WellFormed.snoc {events : List (Event T D)} {event : Event T D} (h : WellFormed events)
    (hnonneg : ∀ time, 0 ≤ Event.accumulated (events ++ [event]) time)
    (hcovered : ∀ time data, event = .messages time data → ∃ least, least ≤ time ∧
      0 < Event.accumulated events least) : WellFormed (events ++ [event]) where
  nonneg before hbefore := by
    rcases List.prefix_concat_iff.mp hbefore with rfl | hinitial
    · exact hnonneg
    · exact h.nonneg before hinitial
  covered before time data hbefore := by
    rcases List.prefix_concat_iff.mp hbefore with heq | hinitial
    · obtain ⟨rfl, hlast⟩ := List.append_inj' heq rfl
      exact hcovered time data (List.singleton_inj.mp hlast).symm
    · exact h.covered before time data hinitial

/-- What has been written is the frontier the operator was told of, up to what still waits. -/
structure Writing (site : CaptureSite T D) : Prop where
  wellFormed : WellFormed site.capture.pushed
  fresh : site.capture.started = false → site.capture.pushed = [] ∧
    ∀ time, site.capture.frontiers.value time = tally site.told time
  running : site.capture.started = true → ∀ time,
    Event.accumulated site.capture.pushed time + site.capture.frontiers.value time = tally site.told time

theorem Event.accumulated_nil (time : T) :
    Event.accumulated ([] : List (Event T D)) time = if time = Timestamp.minimum then 1 else 0 := add_zero _

theorem writing_new : Writing (⟨Capture.new, []⟩ : CaptureSite T D) where
  wellFormed :=
    { nonneg := by
        intro before hbefore time
        rw [List.prefix_nil.mp hbefore, Event.accumulated_nil]
        split <;> decide
      covered := by
        intro before time data hbefore
        exact absurd (List.prefix_nil.mp hbefore) (by simp) }
  fresh _ := ⟨rfl, fun _ => rfl⟩
  running h := by cases h

namespace Writing

variable {site : CaptureSite T D}

/-- After the transmission the stream accumulates to what the operator was told. -/
theorem transmit (h : Writing site) (hnonneg : ∀ time, 0 ≤ tally site.told time) :
    WellFormed site.capture.start.transmit.pushed ∧ site.capture.start.transmit.started = true ∧
    (∀ time, site.capture.start.transmit.frontiers.value time = 0) ∧
    ∀ time, Event.accumulated site.capture.start.transmit.pushed time = tally site.told time := by
  have hstart : site.capture.start.started = true ∧ site.capture.start.pushed = site.capture.pushed ∧
      ∀ time, Event.accumulated site.capture.pushed time + site.capture.start.frontiers.value time =
        tally site.told time := by
    unfold Capture.start
    cases hstarted : site.capture.started with
    | true => exact ⟨hstarted, rfl, h.running hstarted⟩
    | false =>
      obtain ⟨hpushed, hvalue⟩ := h.fresh hstarted
      refine ⟨rfl, rfl, fun time => ?_⟩
      -- the capability that the stream starts with is taken out of the first changes
      rw [hpushed, Event.accumulated_nil]
      change _ + (site.capture.frontiers.update Timestamp.minimum (-1)).value time = _
      rw [ChangeBatch.value_update, hvalue]
      by_cases hminimum : time = Timestamp.minimum
      · simp [hminimum]
      · simp [hminimum, Ne.symm hminimum]
  obtain ⟨hstarted, hpushed, hvalue⟩ := hstart
  unfold Capture.transmit
  by_cases hempty : site.capture.start.frontiers.is_empty.1 = true
  · rw [if_pos hempty]
    have hzero := ChangeBatch.value_of_is_empty hempty
    refine ⟨?_, hstarted, fun time => ?_, fun time => ?_⟩
    · dsimp only
      rw [hpushed]
      exact h.wellFormed
    · exact (ChangeBatch.value_is_empty _ time).trans (hzero time)
    · dsimp only
      rw [hpushed, ← hvalue, hzero, add_zero]
  · rw [if_neg hempty]
    have htotal : ∀ time, Event.accumulated (site.capture.start.pushed ++
        [.progress site.capture.start.frontiers.is_empty.2.into_inner]) time = tally site.told time := by
      intro time
      rw [Event.accumulated_append, hpushed, ← hvalue]
      refine congrArg _ ?_
      simp [Event.changes, ChangeBatch.into_inner]
    refine ⟨?_, hstarted, fun _ => rfl, htotal⟩
    refine WellFormed.snoc (by rw [hpushed]; exact h.wellFormed) ?_ ?_
    · intro time
      rw [htotal]
      exact hnonneg time
    · intro time data heq
      cases heq

/-- Messages are written where they are covered, and change no counts. -/
theorem foldl_receive {told : List (T × ℤ)} {capture : Capture T D} (messages : List (Message T D))
    (hwellFormed : WellFormed capture.pushed) (hnonneg : ∀ time, 0 ≤ tally told time)
    (htold : ∀ time, Event.accumulated capture.pushed time = tally told time)
    (hcovered : ∀ message ∈ messages, ∃ time, time ≤ message.time ∧ 0 < tally told time) :
    WellFormed (messages.foldl Capture.receive capture).pushed ∧
    (messages.foldl Capture.receive capture).started = capture.started ∧
    (messages.foldl Capture.receive capture).frontiers = capture.frontiers ∧
    ∀ time, Event.accumulated (messages.foldl Capture.receive capture).pushed time = tally told time := by
  induction messages generalizing capture with
  | nil => exact ⟨hwellFormed, rfl, rfl, htold⟩
  | cons message messages ih =>
    have htotal : ∀ time, Event.accumulated (capture.receive message).pushed time = tally told time := by
      intro time
      unfold Capture.receive
      rw [Event.accumulated_append, htold]
      simp [Event.changes]
    have hreceived : WellFormed (capture.receive message).pushed := by
      refine hwellFormed.snoc ?_ ?_
      · intro time
        rw [show capture.pushed ++ [.messages message.time message.data] = (capture.receive message).pushed
          from rfl, htotal]
        exact hnonneg time
      · intro time data heq
        obtain ⟨rfl, -⟩ := Event.messages.inj heq
        obtain ⟨least, hle, hpositive⟩ := hcovered message List.mem_cons_self
        exact ⟨least, hle, by rwa [htold]⟩
    exact ih hreceived htotal fun other hother => hcovered other (List.mem_cons_of_mem _ hother)

theorem step (h : Writing site) {label : CaptureEvent T D} {after : CaptureSite T D}
    (hstep : CaptureStep site label after) : Writing after := by
  cases hstep with
  | @frontier changes =>
    refine ⟨h.wellFormed, fun hstarted => ?_, fun hstarted time => ?_⟩
    · obtain ⟨hpushed, hvalue⟩ := h.fresh hstarted
      refine ⟨hpushed, fun time => ?_⟩
      rw [ChangeBatch.value_extend, tally_append, hvalue]
    · rw [ChangeBatch.value_extend, tally_append, ← h.running hstarted, add_assoc]
  | @schedule input hnonneg hcovered =>
    obtain ⟨hwellFormed, hstarted, hzero, htold⟩ := h.transmit hnonneg
    obtain ⟨hwritten, hsame, hfrontiers, htotal⟩ :=
      foldl_receive (input.takeWhile fun message => !message.data.isEmpty) hwellFormed hnonneg htold
        fun message hmessage => hcovered message (List.takeWhile_subset _ hmessage)
    refine ⟨hwritten, fun hnot => ?_, fun _ time => ?_⟩
    · have hcontra := hsame.trans hstarted
      exact absurd (hnot.symm.trans hcontra) (by decide)
    · unfold Capture.schedule
      dsimp only
      rw [htotal, hfrontiers, hzero, add_zero]

end Writing

/-- A captured stream is well formed. -/
theorem Captured.wellFormed {events : List (Event T D)} (h : Captured events) : WellFormed events := by
  obtain ⟨labels, site, hrun, rfl⟩ := h
  have hwriting : Writing site :=
    hrun.invariant (P := fun _ site => Writing site) writing_new fun hbefore hstep => hbefore.step hstep
  exact hwriting.wellFormed

end Timely
