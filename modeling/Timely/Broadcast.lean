/-
  Timely/Broadcast.lean
  =====================
  **Progcasters and the channels between them** (`timely/src/progress/broadcast.rs`).

  Each worker has a progcaster, and there is a first-in first-out channel from
  each worker to each worker.  A call of `recv` pulls messages until none has
  arrived; which messages have arrived is left open.  Whatever allocation a pusher
  leaves behind, each worker is given the batches of each sender as they were sent.
-/
import Timely.Progcaster
import Timely.Library.Run
import Mathlib.Algebra.BigOperators.Fin
import Mathlib.Algebra.Order.BigOperators.Group.Finset

set_option linter.unusedSectionVars false

namespace Timely

open Library

/-- The progcasters of all workers, the messages under way from each sender to each receiver, and,
    for the record, the batches sent by each worker and the messages received. -/
structure Broadcast (peers : ℕ) (T : Type) where
  progcasters : Fin peers → Progcaster T
  channels : Fin peers → Fin peers → List (ProgressMsg T)
  sent : Fin peers → List (ProgressVec T)
  received : Fin peers → Fin peers → List (ProgressMsg T)

namespace Broadcast

variable {peers : ℕ} {T : Type} [PartialOrder T] [DecidableLE T] [DecidableEq T] [Ord T]
  [LinearExtension T]

/-- Nothing has been sent. -/
def new : Broadcast peers T where
  progcasters worker := Progcaster.new worker
  channels _ _ := []
  sent _ := []
  received _ _ := []

/-- A worker sends pointstamp changes to all workers.  Each pusher is given by what it leaves behind;
    the result has the changes that are left. -/
def send (broadcast : Broadcast peers T) (worker : Fin peers)
    (pushers : Fin peers → Option (ProgressMsg T)) (changes : ChangeBatch (Location × T)) :
    Broadcast peers T × ChangeBatch (Location × T) :=
  let outcome := (broadcast.progcasters worker).send (List.ofFn pushers) changes
  ({ broadcast with
      progcasters := Function.update broadcast.progcasters worker outcome.1
      channels := Function.update broadcast.channels worker fun receiver =>
        broadcast.channels worker receiver ++ (outcome.2.1[receiver.val]?).toList
      sent := Function.update broadcast.sent worker (broadcast.sent worker ++
        if changes.compact.updates = [] then [] else [changes.compact.updates]) },
    outcome.2.2)

/-- Pull the next message of one sender. -/
def pull (broadcast : Broadcast peers T) (receiver sender : Fin peers) :
    Option (ProgressMsg T × Broadcast peers T) :=
  match broadcast.channels sender receiver with
  | [] => none
  | message :: rest =>
    some (message,
      { broadcast with
        channels := Function.update broadcast.channels sender
          (Function.update (broadcast.channels sender) receiver rest)
        received := Function.update broadcast.received sender
          (Function.update (broadcast.received sender) receiver
            (broadcast.received sender receiver ++ [message])) })

/-- Pull messages, of the given senders in turn. -/
def pull_all (receiver : Fin peers) :
    List (Fin peers) → Broadcast peers T → Option (List (ProgressMsg T) × Broadcast peers T)
  | [], broadcast => some ([], broadcast)
  | sender :: senders, broadcast =>
    (broadcast.pull receiver sender).bind fun pulled =>
      (pull_all receiver senders pulled.2).map fun rest => (pulled.1 :: rest.1, rest.2)

/-- A worker receives pointstamp changes: the messages that have arrived, of the given senders. -/
def recv (broadcast : Broadcast peers T) (worker : Fin peers) (senders : List (Fin peers))
    (changes : ChangeBatch (Location × T)) :
    Option (Broadcast peers T × ChangeBatch (Location × T)) :=
  (pull_all worker senders broadcast).map fun pulled =>
    (pulled.2, Progcaster.recv pulled.1 changes)

/-- The calls of all workers. -/
inductive Event (peers : ℕ) (T : Type) [Ord T] where
  | send (worker : Fin peers) (pushers : Fin peers → Option (ProgressMsg T))
      (changes : ChangeBatch (Location × T))
  | recv (worker : Fin peers) (senders : List (Fin peers)) (changes : ChangeBatch (Location × T))

inductive Step : Broadcast peers T → Event peers T → Broadcast peers T → Prop
  | send {broadcast : Broadcast peers T} {worker : Fin peers}
      {pushers : Fin peers → Option (ProgressMsg T)} {changes : ChangeBatch (Location × T)} :
      Step broadcast (.send worker pushers changes) (broadcast.send worker pushers changes).1
  | recv {broadcast after : Broadcast peers T} {worker : Fin peers} {senders : List (Fin peers)}
      {changes left : ChangeBatch (Location × T)} :
      broadcast.recv worker senders changes = some (after, left) →
      Step broadcast (.recv worker senders changes) after

/-! ### Messages in order -/

/-- The messages that carry the batches of a worker. -/
def numbered (worker : Fin peers) (batches : List (ProgressVec T)) : List (ProgressMsg T) :=
  batches.zipIdx.map fun batch => ⟨worker, batch.2, batch.1⟩

theorem numbered_snoc (worker : Fin peers) (batches : List (ProgressVec T)) (batch : ProgressVec T) :
    numbered worker (batches ++ [batch]) =
      numbered worker batches ++ [⟨worker, batches.length, batch⟩] := by
  simp [numbered, List.zipIdx_append]

theorem changes_numbered (worker : Fin peers) (batches : List (ProgressVec T)) :
    (numbered worker batches).map ProgressMsg.changes = batches := by
  unfold numbered
  rw [List.map_map]
  exact List.zipIdx_map_fst 0 batches

/-- Each channel carries on from what has been received of its sender. -/
structure Exact (broadcast : Broadcast peers T) : Prop where
  source : ∀ worker, (broadcast.progcasters worker).source = worker
  counter : ∀ worker, (broadcast.progcasters worker).counter = (broadcast.sent worker).length
  delivered : ∀ sender receiver, broadcast.received sender receiver ++
    broadcast.channels sender receiver = numbered sender (broadcast.sent sender)

theorem exact_new : Exact (new : Broadcast peers T) :=
  ⟨fun _ => rfl, fun _ => rfl, fun _ _ => rfl⟩

/-! ### Sending -/

/-- What sending does to the channels and the record. -/
theorem Exact.send_cases {broadcast : Broadcast peers T} (h : broadcast.Exact) (worker : Fin peers)
    (pushers : Fin peers → Option (ProgressMsg T)) (changes : ChangeBatch (Location × T)) :
    (changes.compact.updates = [] ∧
      (∀ receiver, (broadcast.send worker pushers changes).1.channels worker receiver =
        broadcast.channels worker receiver) ∧
      (broadcast.send worker pushers changes).1.sent worker = broadcast.sent worker) ∨
    (changes.compact.updates ≠ [] ∧
      (∀ receiver, (broadcast.send worker pushers changes).1.channels worker receiver =
        broadcast.channels worker receiver ++
          [⟨worker, (broadcast.sent worker).length, changes.compact.updates⟩]) ∧
      (broadcast.send worker pushers changes).1.sent worker =
        broadcast.sent worker ++ [changes.compact.updates]) := by
  have hsent := Progcaster.sent_send (broadcast.progcasters worker) (List.ofFn pushers) changes
  unfold send
  simp only [Function.update_self]
  by_cases hempty : changes.compact.updates = []
  · left
    obtain ⟨hmessages, _⟩ := hsent.silent hempty
    refine ⟨hempty, fun receiver => ?_, ?_⟩
    · rw [hmessages]
      exact List.append_nil _
    · rw [if_pos hempty, List.append_nil]
  · right
    obtain ⟨hmessages, _⟩ := hsent.spoken hempty
    refine ⟨hempty, fun receiver => ?_, ?_⟩
    · have hindex : receiver.val < (List.ofFn pushers).length := by
        rw [List.length_ofFn]
        exact receiver.isLt
      rw [hmessages, List.getElem?_replicate_of_lt hindex]
      unfold Progcaster.announce
      rw [h.source, h.counter]
      rfl
    · rw [if_neg hempty]

theorem Exact.send {broadcast : Broadcast peers T} (h : broadcast.Exact) (worker : Fin peers)
    (pushers : Fin peers → Option (ProgressMsg T)) (changes : ChangeBatch (Location × T)) :
    (broadcast.send worker pushers changes).1.Exact := by
  have hsent := Progcaster.sent_send (broadcast.progcasters worker) (List.ofFn pushers) changes
  have hprogcaster : (broadcast.send worker pushers changes).1.progcasters worker =
      ((broadcast.progcasters worker).send (List.ofFn pushers) changes).1 :=
    Function.update_self worker _ _
  have hothers : ∀ other, other ≠ worker →
      (broadcast.send worker pushers changes).1.progcasters other = broadcast.progcasters other ∧
      (broadcast.send worker pushers changes).1.channels other = broadcast.channels other ∧
      (broadcast.send worker pushers changes).1.sent other = broadcast.sent other := fun other hne =>
    ⟨Function.update_of_ne hne _ _, Function.update_of_ne hne _ _, Function.update_of_ne hne _ _⟩
  refine ⟨fun other => ?_, fun other => ?_, fun sender receiver => ?_⟩
  · by_cases hother : other = worker
    · subst hother
      rw [hprogcaster, hsent.source]
      exact h.source other
    · rw [(hothers other hother).1]
      exact h.source other
  · by_cases hother : other = worker
    · subst hother
      rw [hprogcaster]
      rcases h.send_cases other pushers changes with ⟨hempty, _, hrecord⟩ | ⟨hempty, _, hrecord⟩
      · rw [hrecord, (hsent.silent hempty).2]
        exact h.counter other
      · rw [hrecord, (hsent.spoken hempty).2, List.length_append, h.counter other]
        rfl
    · rw [(hothers other hother).1, (hothers other hother).2.2]
      exact h.counter other
  · change broadcast.received sender receiver ++ _ = _
    by_cases hsender : sender = worker
    · subst hsender
      rcases h.send_cases sender pushers changes with ⟨_, hchannel, hrecord⟩ | ⟨_, hchannel, hrecord⟩
      · rw [hchannel, hrecord]
        exact h.delivered sender receiver
      · rw [hchannel, hrecord, numbered_snoc, ← List.append_assoc, h.delivered]
    · rw [(hothers sender hsender).2.1, (hothers sender hsender).2.2]
      exact h.delivered sender receiver

/-- Sending leaves no changes behind. -/
theorem send_empty (broadcast : Broadcast peers T) (worker : Fin peers)
    (pushers : Fin peers → Option (ProgressMsg T)) (changes : ChangeBatch (Location × T)) :
    (broadcast.send worker pushers changes).2.updates = [] :=
  (Progcaster.sent_send (broadcast.progcasters worker) (List.ofFn pushers) changes).empty

/-! ### Receiving -/

/-- What pulling does: messages move from the channels to one receiver into the record, each behind
    those of its sender. -/
structure Pulled (receiver : Fin peers) (messages : List (ProgressMsg T))
    (broadcast after : Broadcast peers T) : Prop where
  progcasters : after.progcasters = broadcast.progcasters
  sent : after.sent = broadcast.sent
  kept : ∀ sender other, after.received sender other ++ after.channels sender other =
    broadcast.received sender other ++ broadcast.channels sender other
  others : ∀ sender other, other ≠ receiver →
    after.received sender other = broadcast.received sender other
  prefixed : ∀ sender, broadcast.received sender receiver <+: after.received sender receiver
  total : ∀ key, ∑ sender, tally ((after.received sender receiver).flatMap ProgressMsg.changes) key =
    ∑ sender, tally ((broadcast.received sender receiver).flatMap ProgressMsg.changes) key +
      tally (messages.flatMap ProgressMsg.changes) key

theorem Pulled.refl (receiver : Fin peers) (broadcast : Broadcast peers T) :
    Pulled receiver [] broadcast broadcast :=
  ⟨rfl, rfl, fun _ _ => rfl, fun _ _ _ => rfl, fun _ => List.prefix_refl _,
    fun _ => (add_zero _).symm⟩

theorem Pulled.trans {receiver : Fin peers} {messages more : List (ProgressMsg T)}
    {first second third : Broadcast peers T} (h : Pulled receiver messages first second)
    (h' : Pulled receiver more second third) : Pulled receiver (messages ++ more) first third where
  progcasters := h'.progcasters.trans h.progcasters
  sent := h'.sent.trans h.sent
  kept sender other := (h'.kept sender other).trans (h.kept sender other)
  others sender other hother := (h'.others sender other hother).trans (h.others sender other hother)
  prefixed sender := (h.prefixed sender).trans (h'.prefixed sender)
  total key := by
    rw [h'.total, h.total, List.flatMap_append, tally_append, add_assoc]

theorem pulled_of_pull {broadcast after : Broadcast peers T} {receiver sender : Fin peers}
    {message : ProgressMsg T} (h : broadcast.pull receiver sender = some (message, after)) :
    Pulled receiver [message] broadcast after := by
  unfold pull at h
  split at h
  case h_1 => cases h
  case h_2 first rest hchannel =>
    obtain ⟨rfl, rfl⟩ := Prod.mk.inj (Option.some.inj h)
    have hreceived : ∀ other, Function.update broadcast.received sender
        (Function.update (broadcast.received sender) receiver
          (broadcast.received sender receiver ++ [first])) other receiver =
        broadcast.received other receiver ++ if other = sender then [first] else [] := by
      intro other
      by_cases hother : other = sender
      · subst hother
        rw [Function.update_self, Function.update_self, if_pos rfl]
      · rw [Function.update_of_ne hother, if_neg hother, List.append_nil]
    refine ⟨rfl, rfl, fun other target => ?_, fun other target htarget => ?_, fun other => ?_,
      fun key => ?_⟩
    · by_cases hother : other = sender
      · subst hother
        by_cases htarget : target = receiver
        · subst htarget
          simp only [Function.update_self]
          rw [hchannel, List.append_assoc]
          rfl
        · simp only [Function.update_self, Function.update_of_ne htarget]
      · simp only [Function.update_of_ne hother]
    · by_cases hother : other = sender
      · subst hother
        simp only [Function.update_self, Function.update_of_ne htarget]
      · simp only [Function.update_of_ne hother]
    · simp only [hreceived]
      exact List.prefix_append _ _
    · simp only [hreceived, List.flatMap_append, tally_append, Finset.sum_add_distrib]
      congr 1
      rw [Finset.sum_eq_single sender]
      · rw [if_pos rfl]
      · intro other _ hother
        rw [if_neg hother]
        rfl
      · exact fun habsent => absurd (Finset.mem_univ sender) habsent

theorem pulled_of_pull_all {receiver : Fin peers} {senders : List (Fin peers)}
    {messages : List (ProgressMsg T)} {broadcast after : Broadcast peers T}
    (h : pull_all receiver senders broadcast = some (messages, after)) :
    Pulled receiver messages broadcast after := by
  induction senders generalizing broadcast messages with
  | nil =>
    obtain ⟨rfl, rfl⟩ := Prod.mk.inj (Option.some.inj h)
    exact Pulled.refl receiver _
  | cons sender senders ih =>
    obtain ⟨⟨message, middle⟩, hpull, hrest⟩ := Option.bind_eq_some_iff.mp h
    obtain ⟨⟨more, last⟩, hmore, heq⟩ := Option.map_eq_some_iff.mp hrest
    obtain ⟨rfl, rfl⟩ := Prod.mk.inj heq
    exact (pulled_of_pull hpull).trans (ih hmore)

theorem recv_cases {broadcast after : Broadcast peers T} {worker : Fin peers}
    {senders : List (Fin peers)} {changes left : ChangeBatch (Location × T)}
    (h : broadcast.recv worker senders changes = some (after, left)) :
    ∃ messages, Pulled worker messages broadcast after ∧ left = Progcaster.recv messages changes := by
  obtain ⟨⟨messages, last⟩, hpulled, heq⟩ := Option.map_eq_some_iff.mp h
  obtain ⟨rfl, rfl⟩ := Prod.mk.inj heq
  exact ⟨messages, pulled_of_pull_all hpulled, rfl⟩

theorem Exact.pulled {broadcast after : Broadcast peers T} (h : broadcast.Exact)
    {receiver : Fin peers} {messages : List (ProgressMsg T)}
    (hpulled : Pulled receiver messages broadcast after) : after.Exact where
  source worker := by
    rw [hpulled.progcasters]
    exact h.source worker
  counter worker := by
    rw [hpulled.progcasters, hpulled.sent]
    exact h.counter worker
  delivered sender other := by
    rw [hpulled.kept, hpulled.sent]
    exact h.delivered sender other

/-- What `recv` adds to the changes are the messages that it receives. -/
theorem value_recv {broadcast after : Broadcast peers T} {worker : Fin peers}
    {senders : List (Fin peers)} {changes left : ChangeBatch (Location × T)}
    (h : broadcast.recv worker senders changes = some (after, left)) (key : Location × T) :
    left.value key +
        ∑ sender, tally ((broadcast.received sender worker).flatMap ProgressMsg.changes) key =
      changes.value key +
        ∑ sender, tally ((after.received sender worker).flatMap ProgressMsg.changes) key := by
  obtain ⟨messages, hpulled, rfl⟩ := recv_cases h
  rw [Progcaster.value_recv, hpulled.total]
  ring

/-- A message that is under way can be pulled. -/
theorem exists_pull {broadcast : Broadcast peers T} {receiver sender : Fin peers}
    (h : broadcast.channels sender receiver ≠ []) :
    ∃ message after, broadcast.pull receiver sender = some (message, after) ∧
      (after.channels sender receiver).length < (broadcast.channels sender receiver).length ∧
      ∀ other, other ≠ sender →
        after.channels other receiver = broadcast.channels other receiver := by
  unfold pull
  cases hchannel : broadcast.channels sender receiver with
  | nil => exact absurd hchannel h
  | cons message rest =>
    refine ⟨message, _, rfl, ?_, fun other hother => ?_⟩
    · simp only [Function.update_self]
      exact Nat.lt_succ_self _
    · simp only [Function.update_of_ne hother]

/-- A worker may find that all messages for it have arrived. -/
theorem exists_pull_all (receiver : Fin peers) (broadcast : Broadcast peers T) :
    ∃ senders messages after, pull_all receiver senders broadcast = some (messages, after) ∧
      ∀ sender, after.channels sender receiver = [] := by
  -- by induction on the number of messages under way to the receiver
  induction hcount : ∑ sender, (broadcast.channels sender receiver).length using Nat.strong_induction_on
    generalizing broadcast with
  | _ count ih =>
    by_cases hnone : ∀ sender, broadcast.channels sender receiver = []
    · exact ⟨[], [], broadcast, rfl, hnone⟩
    · obtain ⟨sender, hsender⟩ := not_forall.mp hnone
      obtain ⟨message, middle, hpull, hshorter, hothers⟩ := exists_pull hsender
      have hless : ∑ other, (middle.channels other receiver).length < count := by
        rw [← hcount]
        refine Finset.sum_lt_sum (fun other _ => ?_) ⟨sender, Finset.mem_univ sender, hshorter⟩
        by_cases hother : other = sender
        · subst hother
          exact hshorter.le
        · rw [hothers other hother]
      obtain ⟨senders, messages, after, hpulled, hempty⟩ := ih _ hless middle rfl
      refine ⟨sender :: senders, message :: messages, after, ?_, hempty⟩
      rw [pull_all, hpull, Option.bind_some, hpulled]
      rfl

/-- A worker that finds all messages arrived has then received all batches of each sender. -/
theorem Exact.exists_recv {broadcast : Broadcast peers T} (h : broadcast.Exact) (worker : Fin peers)
    (changes : ChangeBatch (Location × T)) :
    ∃ senders after left, broadcast.recv worker senders changes = some (after, left) ∧
      ∀ sender, after.received sender worker = numbered sender (broadcast.sent sender) := by
  obtain ⟨senders, messages, after, hpulled, hempty⟩ := exists_pull_all worker broadcast
  refine ⟨senders, after, Progcaster.recv messages changes, ?_, fun sender => ?_⟩
  · unfold recv
    rw [hpulled]
    rfl
  · have hafter := pulled_of_pull_all hpulled
    have hdelivered := (h.pulled hafter).delivered sender worker
    rw [hempty sender, List.append_nil, hafter.sent] at hdelivered
    exact hdelivered

/-! ### Runs -/

/-- The batch that a call sends for a worker, if any. -/
def Event.batch (worker : Fin peers) : Event peers T → Option (ProgressVec T)
  | .send sender _ changes =>
    if sender = worker ∧ changes.compact.updates ≠ [] then some changes.compact.updates else none
  | .recv _ _ _ => none

/-- The batches that a worker has sent: the compacted changes of each call that had any. -/
def batches (events : List (Event peers T)) (worker : Fin peers) : List (ProgressVec T) :=
  events.filterMap (Event.batch worker)

/-- The record of what has been sent is that of the calls. -/
theorem sent_eq_batches {broadcast : Broadcast peers T} {events : List (Event peers T)}
    (hrun : Run Step new events broadcast) (worker : Fin peers) :
    broadcast.sent worker = batches events worker := by
  refine hrun.invariant (P := fun events broadcast => broadcast.sent worker = batches events worker)
    rfl ?_
  intro events before event after hbefore hstep
  have hsnoc : batches (events ++ [event]) worker =
      batches events worker ++ (event.batch worker).toList := by
    unfold batches
    rw [List.filterMap_append]
    cases h : event.batch worker with
    | none => simp [h]
    | some batch => simp [h]
  rw [hsnoc, ← hbefore]
  cases hstep with
  | @send sender pushers changes =>
    change Function.update before.sent sender _ worker = _
    by_cases hworker : worker = sender
    · subst hworker
      rw [Function.update_self]
      by_cases hempty : changes.compact.updates = []
      · simp [Event.batch, hempty]
      · simp [Event.batch, hempty]
    · rw [Function.update_of_ne hworker]
      simp [Event.batch, Ne.symm hworker]
  | recv hrecv =>
    obtain ⟨messages, hpulled, _⟩ := recv_cases hrecv
    rw [hpulled.sent]
    exact (List.append_nil _).symm

theorem Exact.step {broadcast after : Broadcast peers T} {event : Event peers T}
    (h : broadcast.Exact) (hstep : Step broadcast event after) : after.Exact := by
  cases hstep with
  | send => exact h.send _ _ _
  | recv hrecv =>
    obtain ⟨messages, hpulled, _⟩ := recv_cases hrecv
    exact h.pulled hpulled

theorem Exact.run {broadcast after : Broadcast peers T} {events : List (Event peers T)}
    (h : broadcast.Exact) (hrun : Run Step broadcast events after) : after.Exact :=
  hrun.invariant (P := fun _ after => after.Exact) h fun hbefore hstep => hbefore.step hstep

end Broadcast

end Timely
