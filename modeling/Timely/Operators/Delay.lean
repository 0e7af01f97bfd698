/-
  Timely/Operators/Delay.lean
  ===========================
  **Delaying records** (`timely/src/dataflow/operators/delay.rs`, `delay`).

  Each record is stashed under the time that `func` gives it, and released when
  the frontier of the input has passed that time.  Only the first record of a
  time asks for the notification.
-/
import Timely.Operators.Stash

set_option linter.unusedSectionVars false

namespace Timely

open Library

variable {T : Type} [PartialOrder T] [DecidableLE T] [DecidableEq T] [Ord T] [LinearExtension T]
variable [PriorityHeap (Capability T) earlier]
variable {D F : Type}

namespace Delay

/-- What the operator keeps: the state of `func`, the elements by their new times, and the
    notificator. -/
structure State (T D F : Type) [Ord T] [PriorityHeap (Capability T) earlier] where
  func : F
  elements : AList fun _ : T => List D
  notificator : FrontierNotificator T

/-- The operator before it is scheduled for the first time. -/
def start (func : F) : State T D F := ⟨func, ∅, FrontierNotificator.from_iter []⟩

/-- What the operator works with in a session. -/
structure Working (T D F : Type) [Ord T] [PriorityHeap (Capability T) earlier] where
  func : F
  elements : AList fun _ : T => List D
  notificator : Notificator T

/-- Stash one record of a batch.  The new time must not be before that of the batch; a new entry asks
    to be notified. -/
def stash (func : F → D → T → F × T) (internal : Internal) (time : T) (working : Working T D F) (datum : D) :
    Option (Working T D F) :=
  let (after, new_time) := func working.func datum time
  if time ≤ new_time then
    some
      { func := after
        elements := entry_update working.elements new_time [] fun stashed => stashed ++ [datum]
        notificator :=
          if (working.elements.lookup new_time).isSome then working.notificator
          else working.notificator.notify_at ⟨new_time, internal⟩ }
  else none

/-- Stash the records of a batch. -/
def stash_batch (func : F → D → T → F × T) (internal : Internal) (working : Working T D F)
    (batch : T × List D) : Option (Working T D F) :=
  batch.2.foldlM (stash func internal batch.1) working

/-- One scheduling of the operator: it reads its input, and then, for each available notification,
    sends the corresponding set. -/
def turn (func : F → D → T → F × T) (internal : Internal) (state : State T D F) (turn : Turn T D) :
    Option (State T D F × List (T × D)) := do
  let working ← turn.batches.foldlM (stash_batch func internal)
    ⟨state.func, state.elements, Notificator.new [turn.frontier] state.notificator⟩
  let ((elements, output), notificator) := working.notificator.for_each
    (fun state cap _ => release (fun _ data => data) state cap.time)
    (working.notificator.inner.available.items.length + 1) (working.elements, [])
  return (⟨working.func, elements, notificator.inner⟩, output)

/-- The times that `func` gives to records, in the order in which it is called. -/
def assigned (func : F → D → T → F × T) : F → List (T × D) → List (T × D)
  | _, [] => []
  | state, (time, datum) :: records =>
    ((func state datum time).2, datum) :: assigned func (func state datum time).1 records

/-- The state of `func` after it has been called on records. -/
def called (func : F → D → T → F × T) (state : F) (records : List (T × D)) : F :=
  records.foldl (fun state record => (func state record.2 record.1).1) state

theorem assigned_cons (func : F → D → T → F × T) (state : F) (record : T × D) (records : List (T × D)) :
    assigned func state (record :: records) =
      ((func state record.2 record.1).2, record.2) :: assigned func (func state record.2 record.1).1 records :=
  rfl

theorem assigned_append (func : F → D → T → F × T) (state : F) (records more : List (T × D)) :
    assigned func state (records ++ more) =
      assigned func state records ++ assigned func (called func state records) more := by
  induction records generalizing state with
  | nil => rfl
  | cons record records ih =>
    rw [List.cons_append, assigned_cons, assigned_cons, ih]
    rfl

/-- Stash one record, with its time. -/
def stash_record (func : F → D → T → F × T) (internal : Internal) (working : Working T D F)
    (record : T × D) : Option (Working T D F) :=
  stash func internal record.1 working record.2

theorem foldlM_stash_batch (func : F → D → T → F × T) (internal : Internal) (batches : List (T × List D))
    (working : Working T D F) :
    batches.foldlM (stash_batch func internal) working =
      (batches.flatMap fun batch => batch.2.map fun datum => (batch.1, datum)).foldlM
        (stash_record func internal) working := by
  induction batches generalizing working with
  | nil => rfl
  | cons batch batches ih =>
    rw [List.foldlM_cons, List.flatMap_cons, List.foldlM_append, List.foldlM_map]
    exact congrArg (stash_batch func internal working batch >>= ·) (funext ih)

/-- The account of the elements that are kept. -/
abbrev Kept (notificator : Notificator T) (items emitted : List (T × D)) (elements : AList fun _ : T => List D) :
    Prop :=
  Account (fun stashed datum => stashed ++ [datum]) [] (fun _ data => data) notificator items emitted elements

/-- All elements of a time are released, in order. -/
theorem released_data (time : T) (data : List D) :
    released (fun stashed datum => stashed ++ [datum]) [] (fun (_ : T) (data : List D) => data) time data = data := by
  have hfold : ∀ start : List D, data.foldl (fun stashed datum => stashed ++ [datum]) start = start ++ data := by
    induction data with
    | nil => exact fun start => (List.append_nil start).symm
    | cons datum data ih =>
      intro start
      rw [List.foldl_cons, ih, List.append_assoc]
      rfl
  unfold released
  split
  case isTrue hempty => exact (List.isEmpty_iff.mp hempty).symm
  case isFalse => exact hfold []

/-- Each record has been emitted once, at the time that `func` gave it, and the records of a time in the
    order of their arrival.  None was emitted before the frontier had passed its time. -/
def Exact (func : F → D → T → F × T) (first : F) (turns : List (Turn T D)) (outs : List (List (T × D))) : Prop :=
  List.Forall₂ (fun next output => ∀ record ∈ output, beyond [next.frontier] record.1 = true) turns outs ∧
    ∀ time, recordsAt time outs.flatten = recordsAt time (assigned func first (turns.flatMap Turn.records))

section Turns

variable {func : F → D → T → F × T} (hfunc : ∀ state datum time, time ≤ (func state datum time).2)
  (internal : Internal)
include hfunc

/-- A record of a batch is stashed at the time that `func` gives it, where it waits. -/
theorem stash_spec {working : Working T D F} {items emitted : List (T × D)} {record : T × D}
    (hsession : working.notificator.Session) (hkept : Kept working.notificator items emitted working.elements)
    (hnot : beyond working.notificator.frontiers record.1 = false) :
    ∃ after, stash_record func internal working record = some after ∧
      after.notificator.frontiers = working.notificator.frontiers ∧ after.notificator.Session ∧
      after.func = (func working.func record.2 record.1).1 ∧
      Kept after.notificator (items ++ [((func working.func record.2 record.1).2, record.2)]) emitted
        after.elements := by
  obtain ⟨time, datum⟩ := record
  have hle := hfunc working.func datum time
  have hlater : beyond working.notificator.frontiers (func working.func datum time).2 = false := by
    by_contra hbeyond
    rw [beyond_of_le hle (by simpa using hbeyond)] at hnot
    cases hnot
  unfold stash_record stash
  dsimp only
  rw [if_pos hle]
  refine ⟨_, rfl, ?_⟩
  cases hlookup : working.elements.lookup (func working.func datum time).2 with
  | some stashed =>
    have hwait := (hkept.held _ stashed hlookup).2.2.2
    exact ⟨rfl, hsession, rfl, hkept.add_item hlater hwait datum⟩
  | none =>
    have hwaiting := Notificator.waiting_notify_at working.notificator ⟨(func working.func datum time).2, internal⟩
    have hmore : Kept (working.notificator.notify_at ⟨(func working.func datum time).2, internal⟩) items emitted
        working.elements :=
      hkept.mono (fun other hwait => (hwaiting other).mpr (Or.inl hwait)) (Advances.refl _)
    exact ⟨rfl, hsession.notify_at _, rfl, hmore.add_item hlater ((hwaiting _).mpr (Or.inr rfl)) datum⟩

theorem stash_records (records : List (T × D)) (working : Working T D F) {items emitted : List (T × D)}
    (hsession : working.notificator.Session) (hkept : Kept working.notificator items emitted working.elements)
    (hnot : ∀ record ∈ records, beyond working.notificator.frontiers record.1 = false) :
    ∃ after, records.foldlM (stash_record func internal) working = some after ∧
      after.notificator.frontiers = working.notificator.frontiers ∧ after.notificator.Session ∧
      after.func = called func working.func records ∧
      Kept after.notificator (items ++ assigned func working.func records) emitted after.elements := by
  induction records generalizing working items with
  | nil => exact ⟨working, rfl, rfl, hsession, rfl, (List.append_nil items).symm ▸ hkept⟩
  | cons record records ih =>
    rw [List.forall_mem_cons] at hnot
    obtain ⟨middle, hmiddle, hfrontiers, hopen, hstate, hbetween⟩ :=
      stash_spec hfunc internal hsession hkept hnot.1
    obtain ⟨after, hafter, hsame, hlast, hcalled, haccount⟩ :=
      ih middle hopen hbetween fun other hother => hfrontiers ▸ hnot.2 other hother
    refine ⟨after, ?_, hsame.trans hfrontiers, hlast, ?_, ?_⟩
    · rw [List.foldlM_cons, hmiddle]
      exact hafter
    · rw [hcalled, hstate]
      rfl
    · rw [List.append_assoc, hstate] at haccount
      exact haccount

/-- Between turns: the account of all records, and what waits is not past the frontier. -/
structure Between (func : F → D → T → F × T) (start : F) (frontier : MutableAntichain T)
    (turns : List (Turn T D)) (emitted : List (T × D)) (state : State T D F) : Prop where
  past : FrontierNotificator.Past (state.notificator, [frontier])
  left : ∀ time, state.notificator.Waiting time → beyond [frontier] time = false
  called : state.func = called func start (turns.flatMap Turn.records)
  kept : Kept ⟨[frontier], state.notificator⟩ (assigned func start (turns.flatMap Turn.records)) emitted
    state.elements

theorem turn_spec {first : F} {frontier : MutableAntichain T} {turns : List (Turn T D)} {emitted : List (T × D)}
    {state : State T D F} {next : Turn T D} (h : Between func first frontier turns emitted state)
    (hadvances : Advances [frontier] [next.frontier])
    (hbatches : ∀ batch ∈ next.batches, beyond [next.frontier] batch.1 = false) :
    ∃ after output, turn func internal state next = some (after, output) ∧
      (∀ record ∈ output, beyond [next.frontier] record.1 = true) ∧
      Between func first next.frontier (turns ++ [next]) (emitted ++ output) after := by
  have hrecords : ∀ record ∈ next.records, beyond [next.frontier] record.1 = false := by
    intro record hrecord
    obtain ⟨batch, hbatch, hmem⟩ := List.mem_flatMap.mp hrecord
    obtain ⟨datum, -, rfl⟩ := List.mem_map.mp hmem
    exact hbatches batch hbatch
  obtain ⟨working, hworking, hfrontiers, hsession, hcalled, hkept⟩ :=
    stash_records hfunc internal next.records
      ⟨state.func, state.elements, Notificator.new [next.frontier] state.notificator⟩
      (Notificator.session_new h.past hadvances) (h.kept.open_session hadvances) hrecords
  obtain ⟨elements, output, after, hloop, hsame, hpast, hleft, hbeyond, haccount⟩ := hkept.finish hsession
  rw [hfrontiers] at hsame hleft hbeyond
  change working.notificator.frontiers = [next.frontier] at hfrontiers
  have hall : (turns ++ [next]).flatMap Turn.records = turns.flatMap Turn.records ++ next.records := by
    rw [List.flatMap_append, List.flatMap_singleton]
  refine ⟨⟨working.func, elements, after.inner⟩, output, ?_, hbeyond, ?_, hleft, ?_, ?_⟩
  · unfold turn
    rw [foldlM_stash_batch]
    change (next.records.foldlM (stash_record func internal) _ >>= _) = _
    rw [hworking, Option.bind_eq_bind, Option.bind_some]
    dsimp only
    rw [hloop]
    rfl
  · rw [hsame] at hpast
    exact hpast
  · rw [hall, hcalled, h.called]
    exact List.foldl_append.symm
  · rw [hall, assigned_append, ← h.called]
    obtain ⟨frontiers, inner⟩ := after
    obtain rfl : frontiers = [next.frontier] := hsame
    exact haccount

/-- Once the frontier is empty and the operator has been scheduled, it has emitted what it should. -/
theorem delay_exact (first : F) {initial : MutableAntichain T} {turns : List (Turn T D)} {final : Turn T D}
    (hvalid : ValidTurns initial (turns ++ [final])) (hempty : final.frontier.frontier = []) :
    ∃ outs, outputs (turn func internal) (start first) (turns ++ [final]) = some outs ∧
      Exact func first (turns ++ [final]) outs := by
  have hstart : Between func first initial [] [] (start first : State T D F) :=
    ⟨FrontierNotificator.past_from_iter [] [initial],
      fun time hwait => absurd hwait (Notificator.not_waiting_from_iter time), rfl, Account.start _ _ _ _⟩
  obtain ⟨outs, houts, hbeyond, last, hlast⟩ :=
    exists_outputs (turn_spec hfunc internal) hstart hvalid
  refine ⟨outs, houts, hbeyond, fun time => ?_⟩
  rw [foldl_frontier, List.nil_append, List.nil_append] at hlast
  have hdone := hlast.kept.complete (fun other hwait => ?_) time
  · rw [hdone, released_data]
  · have hnot := hlast.left other hwait
    rw [beyond_of_empty hempty] at hnot
    cases hnot

end Turns

end Delay

end Timely
