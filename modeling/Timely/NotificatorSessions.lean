/-
  Timely/NotificatorSessions.lean
  ===============================
  **Sessions deliver in order**
  (`timely/src/dataflow/operators/generic/notificator.rs`, `Notificator`).

  A session makes available what its frontiers are past, and takes an earliest
  time whenever it is asked.  What stays pending cannot become available before
  the session ends, and what is requested meanwhile is not before what has been
  delivered.  Between sessions the frontiers advance: times become available that
  sort before delivered ones, but none that is less.
-/
import Timely.NotificatorRuns

set_option linter.unusedSectionVars false

namespace Timely

open Library

variable {T : Type} [PartialOrder T] [DecidableLE T] [DecidableEq T] [Ord T] [LinearExtension T]
variable [PriorityHeap (Capability T) earlier]

/-! ### Sessions -/

/-- A notification session: a notificator with fixed frontiers. -/
structure Notificator (T : Type) [Ord T] [PriorityHeap (Capability T) earlier] where
  frontiers : List (MutableAntichain T)
  inner : FrontierNotificator T

namespace Notificator

/-- Allocates a new session. -/
def new (frontiers : List (MutableAntichain T)) (inner : FrontierNotificator T) : Notificator T :=
  ⟨frontiers, inner.make_available frontiers⟩

/-- Requests a notification at the time of a capability. -/
def notify_at (notificator : Notificator T) (cap : Capability T) : Notificator T :=
  { notificator with inner := notificator.inner.notify_at_frontiered cap notificator.frontiers }

/-- The next available notification, with a count, and the session that this leaves. -/
def next (notificator : Notificator T) : Option (Capability T × ℕ) × Notificator T :=
  ((notificator.inner.next notificator.frontiers).1.map fun x => (x, 1),
    { notificator with inner := (notificator.inner.next notificator.frontiers).2 })

end Notificator

/-- Sessions over one notificator: the times that have been delivered in those that have ended, and
    in the one that is open. -/
structure Sessions (T : Type) [Ord T] [PriorityHeap (Capability T) earlier] where
  notificator : Notificator T
  ended : List (List T)
  open_session : Option (List T)

/-- What happens to a notificator that is used in sessions. -/
inductive SessionCall (T : Type) [Ord T] where
  | notify_at (cap : Capability T)
  | notify_at_frontiered (cap : Capability T) (frontiers : List (MutableAntichain T))
  | monotonic (frontiers : List (MutableAntichain T))
  | request (cap : Capability T)
  | next (delivered : Option (Capability T))
  | drop

namespace Sessions

/-- A notificator with initial capabilities, before the first session. -/
def start (iter : List (Capability T)) (inputs : List (MutableAntichain T)) : Sessions T :=
  ⟨⟨inputs, FrontierNotificator.from_iter iter⟩, [], none⟩

/-- The times delivered in each session. -/
def all_sessions (sessions : Sessions T) : List (List T) := sessions.ended ++ sessions.open_session.toList

/-- All times delivered so far. -/
def delivered (sessions : Sessions T) : List T := sessions.all_sessions.flatten

/-- A time that may be requested is not less than one that has been delivered. -/
def MayRequest (sessions : Sessions T) (cap : Capability T) : Prop :=
  ∀ time ∈ sessions.delivered, ¬ cap.time < time

/-- One call.  Requests between the sessions go to the notificator, and requests in a session are
    also not before the last time delivered in it. -/
inductive Step : Sessions T → SessionCall T → Sessions T → Prop
  | notify_at {sessions : Sessions T} {cap : Capability T} : sessions.open_session = none →
      sessions.MayRequest cap →
      Step sessions (.notify_at cap)
        { sessions with
          notificator := ⟨sessions.notificator.frontiers, sessions.notificator.inner.notify_at cap⟩ }
  | notify_at_frontiered {sessions : Sessions T} {cap : Capability T}
      {later : List (MutableAntichain T)} : sessions.open_session = none → sessions.MayRequest cap →
      Advances sessions.notificator.frontiers later →
      Step sessions (.notify_at_frontiered cap later)
        { sessions with
          notificator := ⟨later, sessions.notificator.inner.notify_at_frontiered cap later⟩ }
  | monotonic {sessions : Sessions T} {later : List (MutableAntichain T)} : sessions.open_session = none →
      Advances sessions.notificator.frontiers later →
      Step sessions (.monotonic later)
        { sessions with
          notificator := Notificator.new later sessions.notificator.inner
          open_session := some [] }
  | request {sessions : Sessions T} {times : List T} {cap : Capability T} :
      sessions.open_session = some times → sessions.MayRequest cap →
      (∀ last ∈ times.getLast?, sortsBefore last cap.time) →
      Step sessions (.request cap) { sessions with notificator := sessions.notificator.notify_at cap }
  | next {sessions : Sessions T} {times : List T} : sessions.open_session = some times →
      Step sessions (.next (sessions.notificator.next.1.map Prod.fst))
        { sessions with
          notificator := sessions.notificator.next.2
          open_session := some (times ++ (sessions.notificator.next.1.map fun x => x.1.time).toList) }
  | drop {sessions : Sessions T} {times : List T} : sessions.open_session = some times →
      Step sessions .drop { sessions with ended := sessions.ended ++ [times], open_session := none }

/-! ### The invariant -/

/-- In an open session no pending time is available to it, and its times are in order and not after
    the available ones.  No waiting time is less than one that has been delivered. -/
structure Orderly (sessions : Sessions T) : Prop where
  past : FrontierNotificator.Past (sessions.notificator.inner, sessions.notificator.frontiers)
  settled : ∀ times, sessions.open_session = some times → ∀ time,
    sessions.notificator.inner.Pending time → beyond sessions.notificator.frontiers time = false
  sorted : ∀ times ∈ sessions.all_sessions, times.Pairwise sortsBefore
  reached : ∀ times, sessions.open_session = some times → ∀ early ∈ times, ∀ time,
    sessions.notificator.inner.Available time → sortsBefore early time
  ordered : sessions.delivered.Pairwise fun early late => ¬ late < early
  ahead : ∀ early ∈ sessions.delivered, ∀ time, sessions.notificator.inner.Waiting time → ¬ time < early

theorem orderly_start (iter : List (Capability T)) (inputs : List (MutableAntichain T)) :
    (start iter inputs).Orderly where
  past := FrontierNotificator.past_from_iter iter inputs
  settled := fun _ hnone => by cases hnone
  sorted := fun _ hmem => absurd hmem List.not_mem_nil
  reached := fun _ hnone => by cases hnone
  ordered := List.Pairwise.nil
  ahead := fun _ hmem => absurd hmem List.not_mem_nil

/-- In a sorted list, what is not before the last time is not before any. -/
theorem sortsBefore_of_getLast {times : List T} (hsorted : times.Pairwise sortsBefore) {time early : T}
    (hlast : ∀ last ∈ times.getLast?, sortsBefore last time) (hearly : early ∈ times) :
    sortsBefore early time := by
  induction times using List.reverseRecOn with
  | nil => exact absurd hearly List.not_mem_nil
  | append_singleton times last _ =>
    have hbefore := hlast last (by rw [List.getLast?_concat]; rfl)
    rcases List.mem_append.mp hearly with hmem | hmem
    · have hpair := (List.pairwise_append.mp hsorted).2.2 early hmem last (List.mem_singleton_self last)
      exact sortsBefore_trans hpair hbefore
    · rwa [List.mem_singleton.mp hmem]

/-- What waits after a call has been waiting, or is requested: it is not less than what has been
    delivered if no request is. -/
theorem ahead_of_call {before after : FrontierNotificator T × List (MutableAntichain T)}
    {call : FrontierNotificator.Call T} {delivered : List T}
    (hstep : FrontierNotificator.Step before call after)
    (hahead : ∀ early ∈ delivered, ∀ time, before.1.Waiting time → ¬ time < early)
    (hrequests : ∀ cap, call.requested = some cap → ∀ early ∈ delivered, ¬ cap.time < early) :
    ∀ early ∈ delivered, ∀ time, after.1.Waiting time → ¬ time < early := by
  intro early hearly time hwaiting
  rcases hstep.requested (Or.inl hwaiting) with hold | ⟨cap, hcap, rfl⟩
  · exact hahead early hearly time hold
  · exact hrequests cap hcap early hearly

variable {sessions after : Sessions T} {call : SessionCall T}

theorem delivered_of_open {times : List T} (h : sessions.open_session = some times) :
    sessions.delivered = sessions.ended.flatten ++ times := by
  unfold delivered all_sessions
  rw [h, Option.toList_some, List.flatten_append, List.flatten_singleton]

/-- A request between the sessions. -/
theorem Orderly.requested {notificator : Notificator T} (h : sessions.Orderly)
    (hclosed : sessions.open_session = none) {made : FrontierNotificator.Call T} {cap : Capability T}
    (hcap : made.requested = some cap) (hmay : sessions.MayRequest cap)
    (hstep : FrontierNotificator.Step (sessions.notificator.inner, sessions.notificator.frontiers) made
      (notificator.inner, notificator.frontiers)) :
    ({ sessions with notificator := notificator } : Sessions T).Orderly where
  past := (h.past.step hstep).1
  settled times hopen := absurd (hclosed.symm.trans hopen) (Option.some_ne_none times).symm
  sorted := h.sorted
  reached times hopen := absurd (hclosed.symm.trans hopen) (Option.some_ne_none times).symm
  ordered := h.ordered
  ahead := by
    apply ahead_of_call hstep h.ahead
    intro other hother
    rw [hcap] at hother
    cases hother
    exact hmay

/-- Opening a session makes available what its frontiers are past. -/
theorem Orderly.monotonic (h : sessions.Orderly) (hclosed : sessions.open_session = none)
    {later : List (MutableAntichain T)} (hadvances : Advances sessions.notificator.frontiers later) :
    ({ sessions with
        notificator := Notificator.new later sessions.notificator.inner
        open_session := some [] } : Sessions T).Orderly := by
  have hstep : FrontierNotificator.Step (sessions.notificator.inner, sessions.notificator.frontiers) _ _ :=
    .make_available hadvances
  have hsame : sessions.delivered = sessions.ended.flatten := by
    unfold delivered all_sessions
    rw [hclosed, Option.toList_none, List.append_nil]
  have hafter : ∀ notificator : Notificator T,
      (⟨notificator, sessions.ended, some []⟩ : Sessions T).delivered = sessions.delivered := by
    intro notificator
    rw [delivered_of_open rfl, List.append_nil, hsame]
  refine ⟨(h.past.step hstep).1, ?_, ?_, ?_, ?_, ?_⟩
  · rintro _ ⟨⟩ time hpending
    exact ((FrontierNotificator.make_available_spec _ later time).1.mp hpending).2
  · intro times hmem
    rcases List.mem_append.mp hmem with hold | hnew
    · exact h.sorted times (List.mem_append_left _ hold)
    · rw [List.mem_singleton.mp hnew]
      exact List.Pairwise.nil
  · rintro _ ⟨⟩ _ hmem
    exact absurd hmem List.not_mem_nil
  · rw [hafter]
    exact h.ordered
  · rw [hafter]
    exact ahead_of_call hstep h.ahead fun _ hnone => by cases hnone

/-- A request in a session. -/
theorem Orderly.request (h : sessions.Orderly) {times : List T} (hopen : sessions.open_session = some times)
    {cap : Capability T} (hmay : sessions.MayRequest cap)
    (hlast : ∀ last ∈ times.getLast?, sortsBefore last cap.time) :
    ({ sessions with notificator := sessions.notificator.notify_at cap } : Sessions T).Orderly := by
  have hstep : FrontierNotificator.Step (sessions.notificator.inner, sessions.notificator.frontiers) _ _ :=
    .notify_at_frontiered cap (Advances.refl sessions.notificator.frontiers)
  have hsorted : times.Pairwise sortsBefore := h.sorted times (by simp [all_sessions, hopen])
  have hcases := sessions.notificator.inner.notify_at_frontiered_cases cap sessions.notificator.frontiers
  refine ⟨(h.past.step hstep).1, ?_, h.sorted, ?_, h.ordered, ?_⟩
  · intro times' hopen' time hpending
    change (sessions.notificator.inner.notify_at_frontiered cap _).Pending time at hpending
    rcases hcases with ⟨-, heq⟩ | ⟨hbeyond, heq⟩
    · rw [heq] at hpending
      exact h.settled times hopen time hpending
    · rw [heq, FrontierNotificator.pending_notify_at] at hpending
      rcases hpending with hold | hnew
      · exact h.settled times hopen time hold
      · exact hnew ▸ hbeyond
  · intro times' hopen' early hearly time havailable
    obtain rfl : times = times' := Option.some.inj (hopen.symm.trans hopen')
    change (sessions.notificator.inner.notify_at_frontiered cap _).Available time at havailable
    rcases hcases with ⟨-, heq⟩ | ⟨-, heq⟩
    · rw [heq, FrontierNotificator.available_push] at havailable
      rcases havailable with hold | hnew
      · exact h.reached times hopen early hearly time hold
      · rw [← hnew]
        exact sortsBefore_of_getLast hsorted hlast hearly
    · rw [heq] at havailable
      exact h.reached times hopen early hearly time havailable
  · apply ahead_of_call hstep h.ahead
    rintro _ ⟨⟩
    exact hmay

/-- In a session nothing becomes available by looking for it. -/
theorem Orderly.available_of_ready (h : sessions.Orderly) {times : List T}
    (hopen : sessions.open_session = some times) {time : T}
    (havailable : (sessions.notificator.inner.ready sessions.notificator.frontiers).Available time) :
    sessions.notificator.inner.Available time := by
  rcases (FrontierNotificator.ready_spec _ _ time).2.2 havailable with hold | ⟨hpending, hbeyond⟩
  · exact hold
  · rw [h.settled times hopen time hpending] at hbeyond
    cases hbeyond

/-- Taking the next notification of a session. -/
theorem Orderly.next (h : sessions.Orderly) {times : List T} (hopen : sessions.open_session = some times) :
    ({ sessions with
        notificator := sessions.notificator.next.2
        open_session := some (times ++ (sessions.notificator.next.1.map fun x => x.1.time).toList) } :
      Sessions T).Orderly := by
  obtain ⟨⟨frontiers, inner⟩, ended, opened⟩ := sessions
  cases hopen
  have hstep : FrontierNotificator.Step (inner, frontiers) _ _ := .next (Advances.refl frontiers)
  have hpast := (h.past.step hstep).1
  have hold := ahead_of_call hstep h.ahead fun _ hnone => by cases hnone
  have hdelivered : (⟨⟨frontiers, inner⟩, ended, some times⟩ : Sessions T).delivered = ended.flatten ++ times :=
    delivered_of_open rfl
  have hsettled : ∀ time, (inner.ready frontiers).Pending time → beyond frontiers time = false :=
    fun time hpending => h.settled times rfl time ((inner.ready_spec frontiers time).2.1 hpending)
  unfold Notificator.next
  dsimp only at hpast hold ⊢
  rcases inner.next_cases frontiers with ⟨heq, hnone⟩ | ⟨cap, rest, heq, hcap, hleast, hpending, hrest, -, -⟩
  · rw [heq] at hpast hold ⊢
    simp only [Option.map_none, Option.toList_none, List.append_nil]
    exact ⟨hpast, fun _ hsame => Option.some.inj hsame ▸ hsettled, h.sorted,
      fun _ _ _ _ time havailable => absurd havailable (hnone time), h.ordered, hold⟩
  · rw [heq] at hpast hold ⊢
    simp only [Option.map_some, Option.toList_some]
    have havailable := h.available_of_ready rfl hcap
    have hsnoc : (⟨⟨frontiers, rest⟩, ended, some (times ++ [cap.time])⟩ : Sessions T).delivered =
        (⟨⟨frontiers, inner⟩, ended, some times⟩ : Sessions T).delivered ++ [cap.time] := by
      rw [delivered_of_open rfl, hdelivered, List.append_assoc]
    have hreached : ∀ early ∈ times, sortsBefore early cap.time :=
      fun early hearly => h.reached times rfl early hearly cap.time havailable
    refine ⟨hpast, ?_, ?_, ?_, ?_, ?_⟩
    · rintro _ ⟨⟩ time hwait
      exact hsettled time ((hpending time).mp hwait)
    · intro times' hmem
      rcases List.mem_append.mp hmem with hended | hnew
      · exact h.sorted times' (List.mem_append_left _ hended)
      · rw [List.mem_singleton.mp hnew]
        refine List.pairwise_append.mpr ⟨h.sorted times (by simp [all_sessions]), List.pairwise_singleton _ _, ?_⟩
        intro early hearly last hlast
        rw [List.mem_singleton.mp hlast]
        exact hreached early hearly
    · rintro _ ⟨⟩ early hearly time hleft
      have hlast := hleast time (hrest time hleft)
      rcases List.mem_append.mp hearly with hmem | hmem
      · exact sortsBefore_trans (hreached early hmem) hlast
      · rwa [List.mem_singleton.mp hmem]
    · rw [hsnoc]
      refine List.pairwise_append.mpr ⟨h.ordered, List.pairwise_singleton _ _, ?_⟩
      intro early hearly last hlast
      rw [List.mem_singleton.mp hlast]
      exact h.ahead early hearly cap.time (Or.inr havailable)
    · rw [hsnoc]
      intro early hearly time hwaiting hless
      rcases List.mem_append.mp hearly with hmem | hmem
      · exact hold early hmem time hwaiting hless
      · rw [List.mem_singleton.mp hmem] at hless
        rcases hwaiting with hwait | hleft
        · -- it would be available itself
          have hbeyond := beyond_of_le hless.le (h.past cap.time havailable)
          rw [hsettled time ((hpending time).mp hwait)] at hbeyond
          cases hbeyond
        · have hsame := sortsBefore_antisymm (hleast time (hrest time hleft))
            (LinearExtension.isLE_of_le hless.le)
          exact hless.ne hsame.symm

theorem Orderly.step (h : sessions.Orderly) (hstep : Step sessions call after) : after.Orderly := by
  cases hstep with
  | notify_at hclosed hmay =>
    exact h.requested hclosed rfl hmay (.notify_at _)
  | notify_at_frontiered hclosed hmay hadvances =>
    exact h.requested hclosed rfl hmay (.notify_at_frontiered _ hadvances)
  | monotonic hclosed hadvances => exact h.monotonic hclosed hadvances
  | request hopen hmay hlast => exact h.request hopen hmay hlast
  | next hopen => exact h.next hopen
  | @drop times hopen =>
    have hsame : sessions.ended ++ [times] ++ (none : Option (List T)).toList = sessions.all_sessions := by
      unfold all_sessions
      rw [hopen, Option.toList_none, List.append_nil, Option.toList_some]
    refine ⟨h.past, (fun _ hnone => by cases hnone), ?_, (fun _ hnone => by cases hnone), ?_, ?_⟩
    · change ∀ times' ∈ sessions.ended ++ [times] ++ (none : Option (List T)).toList, _
      rw [hsame]
      exact h.sorted
    · change (sessions.ended ++ [times] ++ (none : Option (List T)).toList).flatten.Pairwise _
      rw [hsame]
      exact h.ordered
    · change ∀ early ∈ (sessions.ended ++ [times] ++ (none : Option (List T)).toList).flatten, _
      rw [hsame]
      exact h.ahead

/-- The times delivered in a session do not decrease in the sorting order, and over all sessions no
    time is delivered after one that it is less than. -/
theorem sessions_in_order (iter : List (Capability T)) (inputs : List (MutableAntichain T))
    {calls : List (SessionCall T)} (hrun : Run Step (start iter inputs) calls sessions) :
    (∀ times ∈ sessions.all_sessions, times.Pairwise sortsBefore)
    ∧ sessions.delivered.Pairwise fun early late => ¬ late < early := by
  have horderly : sessions.Orderly :=
    hrun.invariant (P := fun _ sessions => sessions.Orderly) (orderly_start iter inputs)
      fun hbefore hstep => hbefore.step hstep
  exact ⟨horderly.sorted, horderly.ordered⟩

/-- Two initial requests, delivered in order in one session. -/
theorem sessions_in_order_example : ∃ calls, ∃ sessions : Sessions (Unsigned 64),
    Run Step (start [⟨3, ⟨0, 0⟩⟩, ⟨1, ⟨0, 0⟩⟩] [MutableAntichain.new_bottom 0]) calls sessions
    ∧ sessions.delivered = [1, 3] ∧ sessions.delivered.Pairwise fun early late => ¬ late < early := by
  have hadvances : Advances [MutableAntichain.new_bottom (0 : Unsigned 64)] [MutableAntichain.new_bottom 5] :=
    List.Forall₂.cons (fun time _ => ⟨0, List.mem_singleton_self _, Fin.zero_le time⟩) List.Forall₂.nil
  have hopened : Run Step (start [⟨3, ⟨0, 0⟩⟩, ⟨1, ⟨0, 0⟩⟩] [MutableAntichain.new_bottom (0 : Unsigned 64)]) _ _ :=
    Run.nil.snoc (.monotonic rfl hadvances)
  have hfirst := hopened.snoc (.next rfl)
  have hrun := (hfirst.snoc (.next rfl)).snoc (.next rfl)
  exact ⟨_, _, hrun, by decide +kernel, (sessions_in_order _ _ hrun).2⟩

end Sessions

end Timely
