/-
  Timely/Operators/Notify.lean
  ============================
  **Operators that are notified**
  (`timely/src/dataflow/operators/generic/operator.rs`, `unary_notify`, and
  `notificator.rs`, `Notificator::for_each`).

  Whenever the operator is scheduled, it opens a session at the frontier of its
  input, reads the batches that have arrived, and acts on what it is notified of.
  No batch arrives at a time that the frontier has passed.  So a session delivers
  exactly the requested times that the frontier has passed, and what has been
  delivered once is not requested again.
-/
import Timely.NotificatorSessions
import Timely.Library.Keyed

set_option linter.unusedSectionVars false

namespace Timely

open Library

variable {T : Type} [PartialOrder T] [DecidableLE T] [DecidableEq T] [Ord T] [LinearExtension T]
variable [PriorityHeap (Capability T) earlier]

namespace Notificator

/-- Repeatedly calls `logic`, which does not use the notificator, until exhaustion of the available
    notifications.  Each of the `iterations` takes one of them. -/
def for_each {State : Type} (logic : State → Capability T → ℕ → State) :
    ℕ → State → Notificator T → State × Notificator T
  | 0, state, notificator => (state, notificator)
  | iterations + 1, state, notificator =>
    match notificator.next with
    | (none, rest) => (state, rest)
    | (some (cap, count), rest) => for_each logic iterations (logic state cap count) rest

/-! ### Sessions -/

/-- What is available is past the frontiers, and what is pending is not. -/
structure Session (notificator : Notificator T) : Prop where
  past : FrontierNotificator.Past (notificator.inner, notificator.frontiers)
  settled : ∀ time, notificator.inner.Pending time → beyond notificator.frontiers time = false

theorem session_new {inner : FrontierNotificator T} {frontiers later : List (MutableAntichain T)}
    (h : FrontierNotificator.Past (inner, frontiers)) (hadvances : Advances frontiers later) :
    (Notificator.new later inner).Session where
  past := (h.step (.make_available hadvances)).1
  settled time hpending := ((inner.make_available_spec later time).1.mp hpending).2

theorem waiting_new (inner : FrontierNotificator T) (frontiers : List (MutableAntichain T)) (time : T) :
    (Notificator.new frontiers inner).inner.Waiting time ↔ inner.Waiting time := by
  obtain ⟨hpending, havailable⟩ := inner.make_available_spec frontiers time
  change (inner.make_available frontiers).Pending time ∨ (inner.make_available frontiers).Available time ↔ _
  rw [hpending, havailable]
  unfold FrontierNotificator.Waiting
  cases beyond frontiers time <;> simp [or_comm]

variable {notificator : Notificator T}

theorem waiting_notify_at (notificator : Notificator T) (cap : Capability T) (time : T) :
    (notificator.notify_at cap).inner.Waiting time ↔ notificator.inner.Waiting time ∨ cap.time = time := by
  change (notificator.inner.notify_at_frontiered cap notificator.frontiers).Waiting time ↔ _
  unfold FrontierNotificator.Waiting
  rcases notificator.inner.notify_at_frontiered_cases cap notificator.frontiers with ⟨-, heq⟩ | ⟨-, heq⟩
  · rw [heq, FrontierNotificator.available_push, ← or_assoc]
    exact Iff.rfl
  · rw [heq, FrontierNotificator.pending_notify_at, FrontierNotificator.available_notify_at, or_right_comm]

theorem Session.notify_at (h : notificator.Session) (cap : Capability T) :
    (notificator.notify_at cap).Session where
  past := (h.past.step (.notify_at_frontiered cap (Advances.refl notificator.frontiers))).1
  settled time hpending := by
    change (notificator.inner.notify_at_frontiered cap notificator.frontiers).Pending time at hpending
    rcases notificator.inner.notify_at_frontiered_cases cap notificator.frontiers with ⟨-, heq⟩ | ⟨hbeyond, heq⟩
    · rw [heq] at hpending
      exact h.settled time hpending
    · rw [heq, FrontierNotificator.pending_notify_at] at hpending
      rcases hpending with hold | rfl
      · exact h.settled time hold
      · exact hbeyond

theorem not_waiting_from_iter (time : T) : ¬ (FrontierNotificator.from_iter ([] : List (Capability T))).Waiting time := by
  rintro (hpending | havailable)
  · obtain ⟨_, hmem, -⟩ := (FrontierNotificator.pending_from_iter [] time).mp hpending
    exact List.not_mem_nil hmem
  · exact FrontierNotificator.not_available_from_iter [] time havailable

/-! ### Draining a session -/

/-- The capabilities that a session delivers: in order, for exactly the times that have been waiting
    and that the frontiers are past. -/
structure Exhausts (notificator : Notificator T) (caps : List (Capability T)) (after : Notificator T) : Prop where
  frontiers : after.frontiers = notificator.frontiers
  past : FrontierNotificator.Past (after.inner, after.frontiers)
  sorted : caps.Pairwise fun early late => sortsBefore early.time late.time
  delivered : ∀ time, (∃ cap ∈ caps, cap.time = time) ↔
    notificator.inner.Waiting time ∧ beyond notificator.frontiers time = true
  left : ∀ time, after.inner.Waiting time ↔
    notificator.inner.Waiting time ∧ beyond notificator.frontiers time = false

theorem Session.available (h : notificator.Session) {time : T}
    (hwaiting : notificator.inner.Waiting time) (hbeyond : beyond notificator.frontiers time = true) :
    notificator.inner.Available time := by
  refine hwaiting.resolve_left fun hpending => ?_
  rw [h.settled time hpending] at hbeyond
  cases hbeyond

/-- Nothing is delivered when nothing is available. -/
theorem Session.exhausts_nil (h : notificator.Session)
    (hnone : ∀ time, ¬ (notificator.inner.ready notificator.frontiers).Available time) :
    notificator.Exhausts []
      { notificator with inner := notificator.inner.ready notificator.frontiers } := by
  have hfalse : ∀ time, notificator.inner.Waiting time → beyond notificator.frontiers time = false :=
    fun time => FrontierNotificator.beyond_eq_false_of_ready hnone
  refine ⟨rfl, ?_, List.Pairwise.nil, fun time => ?_, fun time => ?_⟩
  · exact FrontierNotificator.past_ready h.past (Advances.refl notificator.frontiers)
  · constructor
    · rintro ⟨_, hmem, -⟩
      exact absurd hmem List.not_mem_nil
    · rintro ⟨hwaiting, hbeyond⟩
      rw [hfalse time hwaiting] at hbeyond
      cases hbeyond
  · rw [(notificator.inner.ready_spec notificator.frontiers time).1]
    exact ⟨fun hwaiting => ⟨hwaiting, hfalse time hwaiting⟩, And.left⟩

/-- Taking an earliest available notification leaves a session, which delivers the other ones. -/
theorem Session.exhausts_cons (h : notificator.Session) {cap : Capability T} {rest : FrontierNotificator T}
    {caps : List (Capability T)} {after : Notificator T}
    (hcap : notificator.inner.Available cap.time)
    (hleast : ∀ time, notificator.inner.Available time → sortsBefore cap.time time)
    (hpending : ∀ time, rest.Pending time ↔ notificator.inner.Pending time)
    (hrest : ∀ time, rest.Available time → notificator.inner.Available time)
    (hkept : ∀ time, notificator.inner.Available time → cap.time = time ∨ rest.Available time)
    (hafter : ({ notificator with inner := rest } : Notificator T).Exhausts caps after) :
    notificator.Exhausts (cap :: caps) after := by
  have hbeyond := h.past cap.time hcap
  -- what waits in the rest has been waiting
  have hwaiting : ∀ time, rest.Waiting time → notificator.inner.Waiting time :=
    fun time => Or.imp (hpending time).mp (hrest time)
  refine ⟨hafter.frontiers, hafter.past, List.pairwise_cons.mpr ⟨fun other hother => ?_, hafter.sorted⟩, ?_, ?_⟩
  · obtain ⟨hwait, hpast⟩ := (hafter.delivered other.time).mp ⟨other, hother, rfl⟩
    exact hleast _ (h.available (hwaiting _ hwait) hpast)
  · intro time
    rw [List.exists_mem_cons_iff, hafter.delivered time]
    constructor
    · rintro (rfl | ⟨hwait, hpast⟩)
      · exact ⟨Or.inr hcap, hbeyond⟩
      · exact ⟨hwaiting time hwait, hpast⟩
    · rintro ⟨hwait, hpast⟩
      exact (hkept time (h.available hwait hpast)).imp_right fun hleft => ⟨Or.inr hleft, hpast⟩
  · intro time
    rw [hafter.left time]
    refine and_congr_left fun hnot => ⟨hwaiting time, fun hwait => ?_⟩
    rcases hwait with hwait | havailable
    · exact Or.inl ((hpending time).mpr hwait)
    · have hpast := h.past time havailable
      rw [hnot] at hpast
      cases hpast

/-- `for_each` hands the capabilities that the session delivers to `logic`, one after the other. -/
theorem Session.for_each {State : Type} (logic : State → Capability T → ℕ → State) {iterations : ℕ}
    (h : notificator.Session) (henough : notificator.inner.available.items.length < iterations) (state : State) :
    ∃ caps, notificator.Exhausts caps (notificator.for_each logic iterations state).2 ∧
      (notificator.for_each logic iterations state).1 =
        caps.foldl (fun state cap => logic state cap 1) state := by
  induction iterations generalizing notificator state with
  | zero => exact absurd henough (Nat.not_lt_zero _)
  | succ iterations ih =>
    rcases notificator.inner.next_cases notificator.frontiers with
      ⟨heq, hnone⟩ | ⟨cap, rest, heq, hcap, hleast, hpending, hrest, hkept, hshorter⟩
    · have hnext : notificator.next =
          (none, { notificator with inner := notificator.inner.ready notificator.frontiers }) := by
        unfold Notificator.next
        rw [heq, Option.map_none]
      unfold Notificator.for_each
      rw [hnext]
      exact ⟨[], h.exhausts_nil hnone, rfl⟩
    · have hnext : notificator.next = (some (cap, 1), { notificator with inner := rest }) := by
        unfold Notificator.next
        rw [heq, Option.map_some]
      -- something was available from the start of the session
      have havailable : notificator.inner.Available cap.time := by
        rcases (notificator.inner.ready_spec notificator.frontiers cap.time).2.2 hcap with hold | ⟨hwait, hbeyond⟩
        · exact hold
        · rw [h.settled cap.time hwait] at hbeyond
          cases hbeyond
      have hready : notificator.inner.ready notificator.frontiers = notificator.inner := by
        obtain ⟨first, hfirst, -⟩ := havailable
        exact FrontierNotificator.ready_of_available notificator.frontiers (List.ne_nil_of_mem hfirst)
      rw [hready] at hleast hpending hrest hkept hshorter
      have hsession : ({ notificator with inner := rest } : Notificator T).Session :=
        ⟨fun time hleft => h.past time (hrest time hleft),
          fun time hwait => h.settled time ((hpending time).mp hwait)⟩
      obtain ⟨caps, hcaps, hstate⟩ := ih hsession (by dsimp only; omega) (logic state cap 1)
      unfold Notificator.for_each
      rw [hnext]
      exact ⟨cap :: caps, h.exhausts_cons havailable hleast hpending hrest hkept hcaps, hstate⟩

end Notificator

/-! ### Turns of an operator -/

/-- What an operator finds when it is scheduled: the frontier of its input, and the batches that it
    reads, in the order of their arrival. -/
structure Turn (T D : Type) [Ord T] where
  frontier : MutableAntichain T
  batches : List (T × List D)

variable {D R State : Type}

/-- The records of a turn, with their times. -/
def Turn.records (turn : Turn T D) : List (T × D) :=
  turn.batches.flatMap fun batch => batch.2.map fun datum => (batch.1, datum)

/-- The frontier advances from one turn to the next, and no batch arrives at a time that it has
    passed. -/
def ValidTurns : MutableAntichain T → List (Turn T D) → Prop
  | _, [] => True
  | frontier, turn :: turns =>
    Advances [frontier] [turn.frontier] ∧
      (∀ batch ∈ turn.batches, beyond [turn.frontier] batch.1 = false) ∧ ValidTurns turn.frontier turns

/-- An empty frontier is past all times. -/
theorem beyond_of_empty {frontier : MutableAntichain T} (h : frontier.frontier = []) (time : T) :
    beyond [frontier] time = true := by
  rw [beyond_iff]
  intro f hf least hleast
  rw [List.mem_singleton.mp hf, h] at hleast
  exact absurd hleast List.not_mem_nil

theorem foldl_frontier (initial : MutableAntichain T) (turns : List (Turn T D)) (final : Turn T D) :
    (turns ++ [final]).foldl (fun _ next => next.frontier) initial = final.frontier := by
  rw [List.foldl_append]
  rfl

/-- What an operator gives to its output in successive turns; `none` is a panic. -/
def outputs (turn : State → Turn T D → Option (State × List (T × R))) :
    State → List (Turn T D) → Option (List (List (T × R)))
  | _, [] => some []
  | state, next :: turns => do
    let (after, output) ← turn state next
    let later ← outputs turn after turns
    return output :: later

/-- What each turn keeps, for all turns so far and all that has been given to the output, is kept by
    successive turns. -/
theorem exists_outputs {turn : State → Turn T D → Option (State × List (T × R))}
    {P : Turn T D → T × R → Prop}
    {Inv : MutableAntichain T → List (Turn T D) → List (T × R) → State → Prop}
    (hturn : ∀ {frontier : MutableAntichain T} {past : List (Turn T D)} {emitted : List (T × R)} {state : State}
      {next : Turn T D}, Inv frontier past emitted state → Advances [frontier] [next.frontier] →
      (∀ batch ∈ next.batches, beyond [next.frontier] batch.1 = false) →
      ∃ after output, turn state next = some (after, output) ∧ (∀ record ∈ output, P next record) ∧
        Inv next.frontier (past ++ [next]) (emitted ++ output) after)
    {frontier : MutableAntichain T} {past turns : List (Turn T D)} {emitted : List (T × R)} {state : State}
    (h : Inv frontier past emitted state) (hvalid : ValidTurns frontier turns) :
    ∃ outs, outputs turn state turns = some outs ∧
      List.Forall₂ (fun next output => ∀ record ∈ output, P next record) turns outs ∧
      ∃ last, Inv (turns.foldl (fun _ next => next.frontier) frontier) (past ++ turns)
        (emitted ++ outs.flatten) last := by
  induction turns generalizing frontier past emitted state with
  | nil =>
    refine ⟨[], rfl, List.Forall₂.nil, state, ?_⟩
    rw [List.append_nil, List.flatten_nil, List.append_nil]
    exact h
  | cons next turns ih =>
    obtain ⟨hadvances, hbatches, hrest⟩ := hvalid
    obtain ⟨after, output, hnext, houtput, hafter⟩ := hturn h hadvances hbatches
    obtain ⟨outs, houts, hall, last, hlast⟩ := ih hafter hrest
    refine ⟨output :: outs, ?_, List.Forall₂.cons houtput hall, last, ?_⟩
    · unfold outputs
      rw [hnext, Option.bind_eq_bind, Option.bind_some]
      dsimp only
      rw [houts]
      rfl
    · rw [List.append_assoc, List.append_assoc] at hlast
      exact hlast

end Timely
