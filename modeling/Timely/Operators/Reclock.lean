/-
  Timely/Operators/Reclock.lean
  =============================
  **Reclocking a stream** (`timely/src/dataflow/operators/reclock.rs`).

  Data is stashed with its time.  Each clock event asks to be notified of its
  time, and when it is, everything in the stash that is not after it is sent.
  Times are totally ordered, so notifications come in the order of the clock
  times over all turns, and the first one that is not before a record is the
  least one.
-/
import Timely.Operators.Notify

set_option linter.unusedSectionVars false

namespace Timely

open Library

variable {T : Type} [PartialOrder T] [DecidableLE T] [DecidableEq T] [Ord T] [LinearExtension T]
variable [PriorityHeap (Capability T) earlier]
variable {D : Type}

namespace Reclock

/-- What the operator finds when it is scheduled: the frontiers of its inputs, and the batches of data
    and of clock events that it reads. -/
structure ClockTurn (T D : Type) [Ord T] where
  data_frontier : MutableAntichain T
  clock_frontier : MutableAntichain T
  batches : List (T × List D)
  clocks : List T

/-- The frontiers of both inputs. -/
def ClockTurn.frontiers (turn : ClockTurn T D) : List (MutableAntichain T) :=
  [turn.data_frontier, turn.clock_frontier]

/-- The records of a turn, with their times. -/
def ClockTurn.records (turn : ClockTurn T D) : List (T × D) :=
  turn.batches.flatMap fun batch => batch.2.map fun datum => (batch.1, datum)

/-- The frontiers advance from one turn to the next, and neither data nor clock events arrive at a time
    that the frontier of their input has passed. -/
def ValidClockTurns : List (MutableAntichain T) → List (ClockTurn T D) → Prop
  | _, [] => True
  | frontiers, turn :: turns =>
    Advances frontiers turn.frontiers ∧
      (∀ batch ∈ turn.batches, beyond [turn.data_frontier] batch.1 = false) ∧
      (∀ clock ∈ turn.clocks, beyond [turn.clock_frontier] clock = false) ∧
      ValidClockTurns turn.frontiers turns

/-- What the operator keeps. -/
structure State (T D : Type) [Ord T] [PriorityHeap (Capability T) earlier] where
  stash : List (T × List D)
  notificator : FrontierNotificator T

/-- The operator before it is scheduled for the first time. -/
def start : State T D := ⟨[], FrontierNotificator.from_iter []⟩

/-- A notification: send what is stashed for times up to the clock time, and retain the rest. -/
def flush (state : List (T × List D) × List (T × D)) (clock : T) : List (T × List D) × List (T × D) :=
  (state.1.filter fun x => ¬ x.1 ≤ clock,
    state.2 ++ (state.1.filter fun x => x.1 ≤ clock).flatMap fun x => x.2.map fun datum => (clock, datum))

/-- One scheduling of the operator: it stashes each data input with its time, requests notification at
    the time of each clock event, and flushes the stash at each available notification. -/
def turn (internal : Internal) (state : State T D) (turn : ClockTurn T D) : State T D × List (T × D) :=
  let stash := state.stash ++ turn.batches
  let session := turn.clocks.foldl (fun notificator clock => notificator.notify_at ⟨clock, internal⟩)
    (Notificator.new turn.frontiers state.notificator)
  let ((stash, output), notificator) := session.for_each (fun state cap _ => flush state cap.time)
    (session.inner.available.items.length + 1) (stash, [])
  (⟨stash, notificator.inner⟩, output)

/-- Successive turns, with all that has been given to the output. -/
def run (internal : Internal) (turns : List (ClockTurn T D)) : State T D × List (T × D) :=
  turns.foldl (fun state next =>
    ((turn internal state.1 next).1, state.2 ++ (turn internal state.1 next).2)) (start, [])

/-- `clock` is the least of the clock times that are not before `time`. -/
def reclocked (clocks : List T) (time clock : T) : Bool :=
  clock ∈ clocks ∧ time ≤ clock ∧ ∀ other ∈ clocks, time ≤ other → clock ≤ other

theorem reclocked_iff {clocks : List T} {time clock : T} :
    reclocked clocks time clock = true ↔
      clock ∈ clocks ∧ time ≤ clock ∧ ∀ other ∈ clocks, time ≤ other → clock ≤ other :=
  decide_eq_true_iff

/-! ### The account of all records -/

/-- For the clock times that have been flushed: what is still stashed is after all of them, and what has
    been emitted at each of them are the records that it is the least clock time for.  The frontiers are
    past them; the other clock times wait. -/
structure Account (notificator : Notificator T) (batches : List (T × List D)) (clocks flushed : List T)
    (stash : List (T × List D)) (emitted : List (T × D)) : Prop where
  stashed : stash = batches.filter fun x => ∀ clock ∈ flushed, ¬ x.1 ≤ clock
  exact : ∀ clock, recordsAt clock emitted =
    if clock ∈ flushed then (batches.filter fun x => reclocked clocks x.1 clock).flatMap Prod.snd else []
  passed : ∀ clock ∈ flushed, beyond notificator.frontiers clock = true
  known : ∀ clock ∈ flushed, clock ∈ clocks
  waiting : ∀ clock, notificator.inner.Waiting clock → clock ∈ clocks
  kept : ∀ clock ∈ clocks, clock ∈ flushed ∨ notificator.inner.Waiting clock

variable {notificator after : Notificator T} {batches : List (T × List D)} {clocks flushed : List T}
  {stash : List (T × List D)} {emitted : List (T × D)}

theorem foldl_flush_append (times : List T) (stash : List (T × List D)) (before output : List (T × D)) :
    times.foldl Reclock.flush (stash, before ++ output) =
      ((times.foldl Reclock.flush (stash, output)).1, before ++ (times.foldl Reclock.flush (stash, output)).2) := by
  induction times generalizing stash output with
  | nil => rfl
  | cons clock times ih =>
    rw [List.foldl_cons, List.foldl_cons]
    unfold Reclock.flush
    dsimp only
    rw [List.append_assoc]
    exact ih _ _

theorem ClockTurn.beyond_of_frontiers {next : ClockTurn T D} {time : T}
    (h : beyond next.frontiers time = true) :
    beyond [next.data_frontier] time = true ∧ beyond [next.clock_frontier] time = true := by
  rw [beyond_iff] at h
  rw [beyond_iff, beyond_iff]
  exact ⟨fun f hf => h f (List.mem_cons.mpr (Or.inl (List.mem_singleton.mp hf))),
    fun f hf => h f (List.mem_cons_of_mem _ hf)⟩

/-- What arrives in a turn is held back by the frontier of its input, and so by both. -/
theorem ClockTurn.not_beyond {next : ClockTurn T D}
    (hdata : ∀ batch ∈ next.batches, beyond [next.data_frontier] batch.1 = false)
    (hclocks : ∀ clock ∈ next.clocks, beyond [next.clock_frontier] clock = false) :
    (∀ batch ∈ next.batches, beyond next.frontiers batch.1 = false) ∧
      ∀ clock ∈ next.clocks, beyond next.frontiers clock = false := by
  constructor
  · refine fun batch hbatch => Bool.eq_false_iff.mpr fun hbeyond => ?_
    exact Bool.eq_false_iff.mp (hdata batch hbatch) (ClockTurn.beyond_of_frontiers hbeyond).1
  · refine fun clock hclock => Bool.eq_false_iff.mpr fun hbeyond => ?_
    exact Bool.eq_false_iff.mp (hclocks clock hclock) (ClockTurn.beyond_of_frontiers hbeyond).2

/-- The records of the batches that meet a condition on their times. -/
theorem records_filter (turns : List (ClockTurn T D)) (condition : T → Bool) :
    ((turns.flatMap ClockTurn.batches).filter fun x => condition x.1).flatMap Prod.snd =
      ((turns.flatMap ClockTurn.records).filter fun x => condition x.1).map Prod.snd := by
  have hbatches : ∀ batches : List (T × List D),
      (batches.filter fun x => condition x.1).flatMap Prod.snd =
        ((batches.flatMap fun batch => batch.2.map fun datum => (batch.1, datum)).filter
          fun x => condition x.1).map Prod.snd := by
    intro batches
    induction batches with
    | nil => rfl
    | cons batch batches ih =>
      rw [List.flatMap_cons, List.filter_append, List.map_append, ← ih, List.filter_map]
      cases hcondition : condition batch.1 with
      | true =>
        rw [List.filter_cons_of_pos (p := fun x : T × List D => condition x.1) hcondition, List.flatMap_cons]
        congr 1
        have hall : batch.2.filter ((fun x : T × D => condition x.1) ∘ fun datum => (batch.1, datum)) = batch.2 :=
          List.filter_eq_self.mpr fun _ _ => hcondition
        rw [hall, List.map_map]
        exact (List.map_id _).symm
      | false =>
        rw [List.filter_cons_of_neg (p := fun x : T × List D => condition x.1) (by simp [hcondition])]
        have hnone : batch.2.filter ((fun x : T × D => condition x.1) ∘ fun datum => (batch.1, datum)) = [] :=
          List.filter_eq_nil_iff.mpr fun _ _ => by simp [hcondition]
        rw [hnone]
        rfl
  rw [hbatches, List.flatMap_assoc]
  rfl

section Total

variable (htotal : ∀ first second : T, first ≤ second ∨ second ≤ first)

/-- Data that arrives is after all that has been flushed. -/
theorem Account.read_data (h : Account notificator batches clocks flushed stash emitted)
    (arrived : List (T × List D)) (hnot : ∀ batch ∈ arrived, beyond notificator.frontiers batch.1 = false) :
    Account notificator (batches ++ arrived) clocks flushed (stash ++ arrived) emitted := by
  have hlater : ∀ batch ∈ arrived, ∀ clock ∈ flushed, ¬ batch.1 ≤ clock := by
    intro batch hbatch clock hclock hle
    have hbeyond := beyond_of_le hle (h.passed clock hclock)
    rw [hnot batch hbatch] at hbeyond
    cases hbeyond
  refine ⟨?_, fun clock => ?_, h.passed, h.known, h.waiting, h.kept⟩
  · rw [List.filter_append, ← h.stashed]
    congr 1
    exact (List.filter_eq_self.mpr fun batch hbatch => decide_eq_true (hlater batch hbatch)).symm
  · rw [h.exact clock]
    by_cases hclock : clock ∈ flushed
    · have hnone : arrived.filter (fun x => reclocked clocks x.1 clock) = [] := by
        refine List.filter_eq_nil_iff.mpr fun batch hbatch hsame => ?_
        exact hlater batch hbatch clock hclock (reclocked_iff.mp hsame).2.1
      rw [if_pos hclock, if_pos hclock, List.filter_append, hnone, List.append_nil]
    · rw [if_neg hclock, if_neg hclock]

include htotal

/-- A clock event that arrives is after all that has been flushed. -/
theorem Account.read_clock (h : Account notificator batches clocks flushed stash emitted) {arrived : T}
    (hnot : beyond notificator.frontiers arrived = false) (internal : Internal) :
    Account (notificator.notify_at ⟨arrived, internal⟩) batches (clocks ++ [arrived]) flushed stash emitted := by
  have hwaiting := Notificator.waiting_notify_at notificator ⟨arrived, internal⟩
  have hlater : ∀ clock ∈ flushed, clock ≤ arrived := by
    intro clock hclock
    refine (htotal clock arrived).resolve_right fun hle => ?_
    have hbeyond := beyond_of_le hle (h.passed clock hclock)
    rw [hnot] at hbeyond
    cases hbeyond
  refine ⟨h.stashed, fun clock => ?_, h.passed, fun clock hclock => List.mem_append_left _ (h.known clock hclock),
    fun clock hwait => ?_, fun clock hclock => ?_⟩
  · rw [h.exact clock]
    by_cases hclock : clock ∈ flushed
    · rw [if_pos hclock, if_pos hclock]
      congr 1
      refine List.filter_congr fun batch _ => Bool.eq_iff_iff.mpr ?_
      rw [reclocked_iff, reclocked_iff]
      constructor
      · rintro ⟨hmem, hle, hleast⟩
        refine ⟨List.mem_append_left _ hmem, hle, fun other hother hbelow => ?_⟩
        rcases List.mem_append.mp hother with hold | hnew
        · exact hleast other hold hbelow
        · rw [List.mem_singleton.mp hnew]
          exact hlater clock hclock
      · rintro ⟨-, hle, hleast⟩
        exact ⟨h.known clock hclock, hle, fun other hother => hleast other (List.mem_append_left _ hother)⟩
    · rw [if_neg hclock, if_neg hclock]
  · rcases (hwaiting clock).mp hwait with hold | rfl
    · exact List.mem_append_left _ (h.waiting clock hold)
    · exact List.mem_append_right _ (List.mem_singleton_self _)
  · rw [hwaiting clock]
    rcases List.mem_append.mp hclock with hold | hnew
    · exact (h.kept clock hold).imp_right Or.inl
    · exact Or.inr (Or.inr (List.mem_singleton.mp hnew).symm)

/-- Flushing at the next clock time: what is sent are the records that it is the least clock time for. -/
theorem Account.flush (h : Account notificator batches clocks flushed stash emitted) {clock : T}
    (hclock : clock ∈ clocks) (hpast : beyond notificator.frontiers clock = true)
    (hbefore : ∀ other ∈ flushed, other ≤ clock)
    (hnext : ∀ other ∈ clocks, other ≤ clock → other = clock ∨ other ∈ flushed) :
    Account notificator batches clocks (flushed ++ [clock]) (Reclock.flush (stash, emitted) clock).1
      (Reclock.flush (stash, emitted) clock).2 := by
  have hcases : ∀ other, other ∈ flushed ++ [clock] ↔ other ∈ flushed ∨ other = clock := fun other => by
    rw [List.mem_append, List.mem_singleton]
  have hsent : ∀ other, recordsAt other ((stash.filter fun x => x.1 ≤ clock).flatMap
      fun x => x.2.map fun datum => (clock, datum)) =
        if other = clock then (stash.filter fun x => x.1 ≤ clock).flatMap Prod.snd else [] := by
    intro other
    generalize stash.filter (fun x => x.1 ≤ clock) = sent
    induction sent with
    | nil => exact (ite_self _).symm
    | cons batch sent ih =>
      rw [List.flatMap_cons, List.flatMap_cons, recordsAt_append, ih]
      by_cases hsame : other = clock
      · rw [if_pos hsame, if_pos hsame, hsame, recordsAt_map_same]
      · rw [if_neg hsame, if_neg hsame, recordsAt_map_other (Ne.symm hsame), List.append_nil]
  refine ⟨?_, fun other => ?_, fun other hother => ?_, fun other hother => ?_, h.waiting, fun other hother => ?_⟩
  · change stash.filter _ = _
    rw [h.stashed, List.filter_filter]
    refine List.filter_congr fun batch _ => ?_
    simp only [hcases, ← Bool.decide_and, decide_eq_decide]
    constructor
    · rintro ⟨hnot, hold⟩ other (hother | rfl)
      · exact hold other hother
      · exact hnot
    · exact fun hall => ⟨hall clock (Or.inr rfl), fun other hother => hall other (Or.inl hother)⟩
  · change recordsAt other (emitted ++ _) = _
    rw [recordsAt_append, h.exact other, hsent other]
    by_cases hflushed : other ∈ flushed
    · -- it has been flushed before: nothing that is stashed is for it
      rw [if_pos hflushed, if_pos ((hcases other).mpr (Or.inl hflushed))]
      split
      case isTrue hsame =>
        have hnone : stash.filter (fun x => x.1 ≤ clock) = [] := by
          refine List.filter_eq_nil_iff.mpr fun batch hbatch hle => ?_
          rw [h.stashed] at hbatch
          have hall := of_decide_eq_true (List.mem_filter.mp hbatch).2
          exact hall other hflushed (hsame ▸ of_decide_eq_true hle)
        rw [hnone, List.flatMap_nil, List.append_nil]
      case isFalse => rw [List.append_nil]
    · rw [if_neg hflushed, List.nil_append]
      by_cases hsame : other = clock
      · subst hsame
        rw [if_pos rfl, if_pos ((hcases other).mpr (Or.inr rfl)), h.stashed, List.filter_filter]
        congr 1
        refine List.filter_congr fun batch _ => ?_
        rw [← Bool.decide_and]
        refine Bool.eq_iff_iff.mpr ?_
        rw [decide_eq_true_iff, reclocked_iff]
        constructor
        · rintro ⟨hle, hall⟩
          refine ⟨hclock, hle, fun least hleast hbelow => ?_⟩
          by_contra hless
          rcases hnext least hleast ((htotal other least).resolve_left hless) with hequal | hold
          · exact hless hequal.ge
          · exact hall least hold hbelow
        · rintro ⟨-, hle, hleast⟩
          refine ⟨hle, fun least hold hbelow => hflushed ?_⟩
          rwa [le_antisymm (hleast least (h.known least hold) hbelow) (hbefore least hold)]
      · rw [if_neg hsame, if_neg fun hmem => ((hcases other).mp hmem).elim hflushed hsame]
  · rcases (hcases other).mp hother with hold | rfl
    · exact h.passed other hold
    · exact hpast
  · rcases (hcases other).mp hother with hold | rfl
    · exact h.known other hold
    · exact hclock
  · exact (h.kept other hother).imp_left fun hold => (hcases other).mpr (Or.inl hold)

/-- Flushing at all clock times that have been passed and not been flushed, in order. -/
theorem Account.flush_all (times : List T) (h : Account notificator batches clocks flushed stash emitted)
    (hsorted : times.Pairwise (· ≤ ·)) (hmem : ∀ time ∈ times, time ∈ clocks)
    (hpast : ∀ time ∈ times, beyond notificator.frontiers time = true)
    (hbefore : ∀ other ∈ flushed, ∀ time ∈ times, other ≤ time)
    (hall : ∀ other ∈ clocks, beyond notificator.frontiers other = true → other ∈ flushed ∨ other ∈ times) :
    ∃ done, (∀ other, other ∈ done ↔ other ∈ flushed ∨ other ∈ times) ∧
      Account notificator batches clocks done (times.foldl Reclock.flush (stash, emitted)).1
        (times.foldl Reclock.flush (stash, emitted)).2 := by
  induction times generalizing flushed stash emitted with
  | nil => exact ⟨flushed, fun other => by simp, h⟩
  | cons clock times ih =>
    obtain ⟨hfirst, hrest⟩ := List.pairwise_cons.mp hsorted
    have hnow := List.mem_cons_self (a := clock) (l := times)
    have hnext : ∀ other ∈ clocks, other ≤ clock → other = clock ∨ other ∈ flushed := by
      intro other hother hle
      rcases hall other hother (beyond_of_le hle (hpast clock hnow)) with hold | hlater
      · exact Or.inr hold
      · rcases List.mem_cons.mp hlater with hsame | hmore
        · exact Or.inl hsame
        · exact Or.inl (le_antisymm hle (hfirst other hmore))
    have hone := h.flush htotal (hmem clock hnow) (hpast clock hnow)
      (fun other hother => hbefore other hother clock hnow) hnext
    obtain ⟨done, hdone, haccount⟩ := ih hone hrest
      (fun time htime => hmem time (List.mem_cons_of_mem _ htime))
      (fun time htime => hpast time (List.mem_cons_of_mem _ htime))
      (fun other hother time htime => by
        rcases List.mem_append.mp hother with hold | hnew
        · exact hbefore other hold time (List.mem_cons_of_mem _ htime)
        · rw [List.mem_singleton.mp hnew]
          exact hfirst time htime)
      (fun other hother hbeyond => by
        rw [List.mem_append, List.mem_singleton, or_assoc, ← List.mem_cons]
        exact hall other hother hbeyond)
    refine ⟨done, fun other => ?_, haccount⟩
    rw [hdone other, List.mem_append, List.mem_singleton, or_assoc, ← List.mem_cons]

theorem Account.read_clocks (arrived : List T) (internal : Internal) (hsession : notificator.Session)
    (h : Account notificator batches clocks flushed stash emitted)
    (hnot : ∀ clock ∈ arrived, beyond notificator.frontiers clock = false) :
    ∃ session, arrived.foldl (fun notificator clock => notificator.notify_at ⟨clock, internal⟩) notificator = session ∧
      session.frontiers = notificator.frontiers ∧ session.Session ∧
      (∀ time, session.inner.Waiting time ↔ notificator.inner.Waiting time ∨ time ∈ arrived) ∧
      Account session batches (clocks ++ arrived) flushed stash emitted := by
  induction arrived generalizing notificator clocks with
  | nil => exact ⟨notificator, rfl, rfl, hsession, fun time => by simp, (List.append_nil clocks).symm ▸ h⟩
  | cons clock arrived ih =>
    rw [List.forall_mem_cons] at hnot
    obtain ⟨session, hfold, hsame, hlast, hwaiting, haccount⟩ :=
      ih (hsession.notify_at ⟨clock, internal⟩) (h.read_clock htotal hnot.1 internal) hnot.2
    rw [List.append_assoc] at haccount
    refine ⟨session, hfold, hsame, hlast, fun time => ?_, haccount⟩
    rw [hwaiting, Notificator.waiting_notify_at, List.mem_cons, or_assoc]
    exact or_congr_right (or_congr_left ⟨Eq.symm, Eq.symm⟩)

/-- Times in the sorting order are in order. -/
theorem pairwise_le {caps : List (Capability T)}
    (h : caps.Pairwise fun early late => sortsBefore early.time late.time) :
    (caps.map Capability.time).Pairwise (· ≤ ·) := by
  refine (List.pairwise_map.mpr h).imp fun {early late} hbefore => ?_
  rcases htotal early late with hle | hle
  · exact hle
  · exact (sortsBefore_antisymm hbefore (LinearExtension.isLE_of_le hle)).le

/-- The end of a turn: all clock times that have been passed are flushed. -/
theorem Account.finish (hsession : notificator.Session)
    (h : Account notificator batches clocks flushed stash emitted)
    (hbefore : ∀ other ∈ flushed, ∀ time, notificator.inner.Waiting time →
      beyond notificator.frontiers time = true → other ≤ time) :
    ∃ left output after,
      notificator.for_each (fun state cap _ => Reclock.flush state cap.time)
        (notificator.inner.available.items.length + 1) (stash, []) = ((left, output), after) ∧
      after.frontiers = notificator.frontiers ∧
      FrontierNotificator.Past (after.inner, after.frontiers) ∧
      (∀ time, after.inner.Waiting time → beyond notificator.frontiers time = false) ∧
      ∃ done, Account after batches clocks done left (emitted ++ output) := by
  obtain ⟨caps, hcaps, hstate⟩ := hsession.for_each (fun state cap _ => Reclock.flush state cap.time)
    (Nat.lt_succ_self _) (stash, ([] : List (T × D)))
  generalize hafter : (notificator.for_each (fun state cap _ => Reclock.flush state cap.time) _
    (stash, ([] : List (T × D)))) = looped at hcaps hstate
  obtain ⟨state, after⟩ := looped
  have hmem : ∀ time, time ∈ caps.map Capability.time ↔
      notificator.inner.Waiting time ∧ beyond notificator.frontiers time = true :=
    fun time => List.mem_map.trans (hcaps.delivered time)
  obtain ⟨done, hdone, hflushed⟩ := h.flush_all htotal (caps.map Capability.time) (pairwise_le htotal hcaps.sorted)
    (fun time htime => h.waiting time ((hmem time).mp htime).1)
    (fun time htime => ((hmem time).mp htime).2)
    (fun other hother time htime => hbefore other hother time ((hmem time).mp htime).1 ((hmem time).mp htime).2)
    (fun other hother hbeyond =>
      (h.kept other hother).imp_right fun hwait => (hmem other).mpr ⟨hwait, hbeyond⟩)
  have hall : state = (caps.map Capability.time).foldl Reclock.flush (stash, []) := by
    rw [List.foldl_map]
    exact hstate
  have hfold := foldl_flush_append (caps.map Capability.time) stash emitted []
  rw [List.append_nil, ← hall] at hfold
  rw [hfold] at hflushed
  refine ⟨state.1, state.2, after, rfl, hcaps.frontiers, hcaps.past,
    fun time hwait => ((hcaps.left time).mp hwait).2, done, hflushed.stashed, hflushed.exact, ?_, hflushed.known, ?_, ?_⟩
  · intro clock hclock
    rw [hcaps.frontiers]
    exact hflushed.passed clock hclock
  · exact fun clock hwait => h.waiting clock ((hcaps.left clock).mp hwait).1
  · intro clock hclock
    rcases hflushed.kept clock hclock with hold | hwait
    · exact Or.inl hold
    · cases hbeyond : beyond notificator.frontiers clock with
      | true => exact Or.inl ((hdone clock).mpr (Or.inr ((hmem clock).mpr ⟨hwait, hbeyond⟩)))
      | false => exact Or.inr ((hcaps.left clock).mpr ⟨hwait, hbeyond⟩)

/-- Between turns: what waits is not past the frontiers, and all records and clock events are accounted
    for. -/
structure Between (frontiers : List (MutableAntichain T)) (turns : List (ClockTurn T D))
    (state : State T D × List (T × D)) : Prop where
  past : FrontierNotificator.Past (state.1.notificator, frontiers)
  left : ∀ time, state.1.notificator.Waiting time → beyond frontiers time = false
  account : ∃ flushed, Account ⟨frontiers, state.1.notificator⟩ (turns.flatMap ClockTurn.batches)
    (turns.flatMap ClockTurn.clocks) flushed state.1.stash state.2

theorem Between.turn {frontiers : List (MutableAntichain T)} {turns : List (ClockTurn T D)}
    {state : State T D × List (T × D)} {next : ClockTurn T D} (h : Between frontiers turns state)
    (internal : Internal) (hadvances : Advances frontiers next.frontiers)
    (hdata : ∀ batch ∈ next.batches, beyond next.frontiers batch.1 = false)
    (hclocks : ∀ clock ∈ next.clocks, beyond next.frontiers clock = false) :
    Between next.frontiers (turns ++ [next])
      ((Reclock.turn internal state.1 next).1, state.2 ++ (Reclock.turn internal state.1 next).2) := by
  obtain ⟨flushed, haccount⟩ := h.account
  have hnew := Notificator.waiting_new state.1.notificator next.frontiers
  have hopened : Account (Notificator.new next.frontiers state.1.notificator) (turns.flatMap ClockTurn.batches)
      (turns.flatMap ClockTurn.clocks) flushed state.1.stash state.2 :=
    { haccount with
      passed := fun clock hclock => hadvances.beyond (haccount.passed clock hclock)
      waiting := fun clock hwait => haccount.waiting clock ((hnew clock).mp hwait)
      kept := fun clock hclock => (haccount.kept clock hclock).imp_right (hnew clock).mpr }
  obtain ⟨session, hsession, hsame, hopen, hwaiting, hread⟩ :=
    (hopened.read_data next.batches hdata).read_clocks htotal next.clocks internal
      (Notificator.session_new h.past hadvances) hclocks
  replace hsame : session.frontiers = next.frontiers := hsame
  obtain ⟨left, output, after, hloop, hfrontiers, hpast, hleft, hdone⟩ :=
    hread.finish htotal hopen fun other hother time hwait hbeyond => by
      -- it was waiting before this turn, and so is not before what had been flushed
      rw [hsame] at hbeyond
      have hold : state.1.notificator.Waiting time := by
        refine ((hwaiting time).mp hwait).elim (hnew time).mp fun harrived => ?_
        exact absurd hbeyond (Bool.eq_false_iff.mp (hclocks time harrived))
      refine (htotal other time).resolve_right fun hle => ?_
      exact Bool.eq_false_iff.mp (h.left time hold) (beyond_of_le hle (haccount.passed other hother))
  have hturn : Reclock.turn internal state.1 next = (⟨left, after.inner⟩, output) := by
    unfold Reclock.turn
    dsimp only
    rw [hsession, hloop]
  rw [hsame] at hfrontiers hleft
  obtain ⟨frontiers', inner⟩ := after
  obtain rfl : frontiers' = next.frontiers := hfrontiers
  rw [hturn]
  refine ⟨hpast, hleft, ?_⟩
  rw [List.flatMap_append, List.flatMap_singleton, List.flatMap_append, List.flatMap_singleton]
  exact hdone

theorem Between.run {frontiers : List (MutableAntichain T)} {turns more : List (ClockTurn T D)}
    {state : State T D × List (T × D)} (h : Between frontiers turns state) (internal : Internal)
    (hvalid : ValidClockTurns frontiers more) :
    Between (more.foldl (fun _ next => next.frontiers) frontiers) (turns ++ more)
      (more.foldl (fun state next =>
        ((Reclock.turn internal state.1 next).1, state.2 ++ (Reclock.turn internal state.1 next).2)) state) := by
  induction more generalizing frontiers turns state with
  | nil =>
    rw [List.append_nil]
    exact h
  | cons next more ih =>
    obtain ⟨hadvances, hdata, hclocks, hrest⟩ := hvalid
    obtain ⟨hdata', hclocks'⟩ := ClockTurn.not_beyond hdata hclocks
    have hlast := ih (h.turn htotal internal hadvances hdata' hclocks') hrest
    rw [List.append_assoc] at hlast
    exact hlast

/-- When both inputs are exhausted, each record has been emitted once at the least clock time that is not
    before its time, if there is one, and not otherwise. -/
theorem reclock_exact (internal : Internal) {initial : List (MutableAntichain T)}
    {turns : List (ClockTurn T D)} {final : ClockTurn T D} (hvalid : ValidClockTurns initial (turns ++ [final]))
    (hdata : final.data_frontier.frontier = []) (hclock : final.clock_frontier.frontier = []) (clock : T) :
    recordsAt clock (run internal (turns ++ [final])).2 =
      (((turns ++ [final]).flatMap ClockTurn.records).filter fun record =>
        reclocked ((turns ++ [final]).flatMap ClockTurn.clocks) record.1 clock).map Prod.snd := by
  have hstart : Between initial [] ((start, []) : State T D × List (T × D)) :=
    { past := FrontierNotificator.past_from_iter [] initial
      left := fun time hwait => absurd hwait (Notificator.not_waiting_from_iter time)
      account := ⟨[], rfl, fun _ => rfl, fun _ hnone => absurd hnone List.not_mem_nil,
        fun _ hnone => absurd hnone List.not_mem_nil,
        fun time hwait => absurd hwait (Notificator.not_waiting_from_iter time),
        fun _ hnone => absurd hnone List.not_mem_nil⟩ }
  have hrun := hstart.run htotal internal hvalid
  have hlast : (turns ++ [final]).foldl (fun _ next => next.frontiers) initial = final.frontiers := by
    rw [List.foldl_append]
    rfl
  rw [hlast, List.nil_append] at hrun
  obtain ⟨flushed, haccount⟩ := hrun.account
  -- nothing waits: all clock times have been flushed
  have hall : ∀ other ∈ (turns ++ [final]).flatMap ClockTurn.clocks, other ∈ flushed := by
    refine fun other hother => (haccount.kept other hother).resolve_right fun hwait => ?_
    refine Bool.eq_false_iff.mp (hrun.left other hwait) (beyond_iff.mpr fun f hf least hleast => ?_)
    rcases List.mem_pair.mp hf with rfl | rfl
    · rw [hdata] at hleast
      exact absurd hleast List.not_mem_nil
    · rw [hclock] at hleast
      exact absurd hleast List.not_mem_nil
  have hexact := haccount.exact clock
  rw [← records_filter _ fun time => reclocked ((turns ++ [final]).flatMap ClockTurn.clocks) time clock]
  by_cases hflushed : clock ∈ flushed
  · rw [if_pos hflushed] at hexact
    exact hexact
  · rw [if_neg hflushed] at hexact
    have hnone : (((turns ++ [final]).flatMap ClockTurn.batches).filter fun x =>
        reclocked ((turns ++ [final]).flatMap ClockTurn.clocks) x.1 clock) = [] :=
      List.filter_eq_nil_iff.mpr fun batch _ hsame => hflushed (hall clock (reclocked_iff.mp hsame).1)
    rw [hnone]
    exact hexact

end Total

/-- Records at 0 and 2, and clock events at 3 and 1. -/
theorem reclock_exact_example : ∃ turns : List (ClockTurn (Unsigned 64) ℕ), ∃ final,
    ValidClockTurns [MutableAntichain.new_bottom 0, MutableAntichain.new_bottom 0] (turns ++ [final]) ∧
      (run ⟨0, 0⟩ (turns ++ [final])).2 = [(1, 10), (3, 20)] ∧
      recordsAt 1 (run ⟨0, 0⟩ (turns ++ [final])).2 =
        (((turns ++ [final]).flatMap ClockTurn.records).filter fun record =>
          reclocked ((turns ++ [final]).flatMap ClockTurn.clocks) record.1 1).map Prod.snd := by
  have hvalid : ValidClockTurns [MutableAntichain.new_bottom 0, MutableAntichain.new_bottom 0]
      ([⟨MutableAntichain.new_bottom 0, MutableAntichain.new_bottom 0, [(2, [20]), (0, [10])], [3, 1]⟩] ++
        [⟨MutableAntichain.new, MutableAntichain.new, [], []⟩] : List (ClockTurn (Unsigned 64) ℕ)) := by
    refine ⟨Advances.refl _, by decide +kernel, ?_, ?_, by decide +kernel,
      fun _ hmem => absurd hmem List.not_mem_nil, trivial⟩
    · exact List.forall_mem_cons.mpr ⟨by decide +kernel, List.forall_mem_singleton.mpr (by decide +kernel)⟩
    · exact List.Forall₂.cons (fun time hmem => absurd hmem List.not_mem_nil)
        (List.Forall₂.cons (fun time hmem => absurd hmem List.not_mem_nil) List.Forall₂.nil)
  exact ⟨_, _, hvalid, by decide +kernel, reclock_exact le_total ⟨0, 0⟩ hvalid rfl rfl 1⟩

end Reclock

end Timely
