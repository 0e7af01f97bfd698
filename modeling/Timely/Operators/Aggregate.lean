/-
  Timely/Operators/Aggregate.lean
  ===============================
  **Aggregating the records of a time**
  (`timely/src/dataflow/operators/aggregation/aggregate.rs`, `aggregate`, and
  `count.rs`, `accumulate`).

  Both operators stash what each batch adds to the value of its time, ask to be
  notified of the time with every batch, and send what the value amounts to when
  the frontier of the input has passed the time.
-/
import Timely.Operators.Delay

set_option linter.unusedSectionVars false

namespace Timely

open Library

variable {T : Type} [PartialOrder T] [DecidableLE T] [DecidableEq T] [Ord T] [LinearExtension T]
variable [PriorityHeap (Capability T) earlier]
variable {D S R : Type}

namespace Aggregate

/-- What is kept for each time, and the notificator. -/
structure State (T S : Type) [Ord T] [PriorityHeap (Capability T) earlier] where
  stash : AList fun _ : T => S
  notificator : FrontierNotificator T

/-- An operator before it is scheduled for the first time. -/
def start : State T S := ⟨∅, FrontierNotificator.from_iter []⟩

/-- Read one batch: add it to the value of its time, and ask to be notified. -/
def stash_batch (add : S → List D → S) (init : S) (internal : Internal)
    (working : (AList fun _ : T => S) × Notificator T) (batch : T × List D) :
    (AList fun _ : T => S) × Notificator T :=
  (entry_update working.1 batch.1 init fun stashed => add stashed batch.2,
    working.2.notify_at ⟨batch.1, internal⟩)

/-- One scheduling of an operator: it reads its input, and then, for each available notification,
    removes the value of the time and sends what `out` makes of it. -/
def turn (add : S → List D → S) (init : S) (out : T → S → List R) (internal : Internal) (state : State T S)
    (turn : Turn T D) : State T S × List (T × R) :=
  let working := turn.batches.foldl (stash_batch add init internal)
    (state.stash, Notificator.new [turn.frontier] state.notificator)
  let ((stash, output), notificator) := working.2.for_each
    (fun state cap _ => release out state cap.time)
    (working.2.inner.available.items.length + 1) (working.1, [])
  (⟨stash, notificator.inner⟩, output)

variable {K V : Type} [DecidableEq K]

/-- `aggregate`: a value for each key of a time, starting with the default, which `emit` turns into
    a result.  The entries of the hash map come in some order. -/
def aggregate (fold : K → V → S → S) (default : S) (emit : K → S → R) (internal : Internal) :
    State T (AList fun _ : K => S) → Turn T (K × V) → State T (AList fun _ : K => S) × List (T × R) :=
  turn
    (fun agg_time data =>
      data.foldl (fun agg_time record => entry_update agg_time record.1 default (fold record.1 record.2)) agg_time)
    ∅ (fun _ aggs => aggs.entries.map fun entry => emit entry.1 entry.2) internal

/-- `accumulate`: one value for each time, to which `logic` adds a batch. -/
def accumulate (default : S) (logic : S → List D → S) (internal : Internal) :
    State T S → Turn T D → State T S × List (T × S) :=
  turn logic default (fun _ accum => [accum]) internal

/-! ### All batches are accounted for -/

section Turns

variable (add : S → List D → S) (init : S) (out : T → S → List R) (internal : Internal)

theorem stash_batches (batches : List (T × List D)) {stash : AList fun _ : T => S} {notificator : Notificator T}
    {items : List (T × List D)} {emitted : List (T × R)} (hsession : notificator.Session)
    (h : Account add init out notificator items emitted stash)
    (hnot : ∀ batch ∈ batches, beyond notificator.frontiers batch.1 = false) :
    ∃ left after, batches.foldl (stash_batch add init internal) (stash, notificator) = (left, after) ∧
      after.frontiers = notificator.frontiers ∧ after.Session ∧
      Account add init out after (items ++ batches) emitted left := by
  induction batches generalizing stash notificator items with
  | nil => exact ⟨stash, notificator, rfl, rfl, hsession, (List.append_nil items).symm ▸ h⟩
  | cons batch batches ih =>
    rw [List.forall_mem_cons] at hnot
    have hwaiting := Notificator.waiting_notify_at notificator ⟨batch.1, internal⟩
    have hmore : Account add init out (notificator.notify_at ⟨batch.1, internal⟩) items emitted stash :=
      h.mono (fun other hwait => (hwaiting other).mpr (Or.inl hwait)) (Advances.refl _)
    obtain ⟨left, after, hfold, hsame, hlast, haccount⟩ := ih (hsession.notify_at ⟨batch.1, internal⟩)
      (hmore.add_item hnot.1 ((hwaiting batch.1).mpr (Or.inr rfl)) batch.2) hnot.2
    rw [List.append_assoc] at haccount
    exact ⟨left, after, hfold, hsame, hlast, haccount⟩

/-- Between turns: the account of all batches, and what waits is not past the frontier. -/
structure Between (frontier : MutableAntichain T) (turns : List (Turn T D)) (emitted : List (T × R))
    (state : State T S) : Prop where
  past : FrontierNotificator.Past (state.notificator, [frontier])
  left : ∀ time, state.notificator.Waiting time → beyond [frontier] time = false
  account : Account add init out ⟨[frontier], state.notificator⟩ (turns.flatMap Turn.batches) emitted state.stash

variable {add init out}

theorem turn_spec {frontier : MutableAntichain T} {turns : List (Turn T D)} {emitted : List (T × R)}
    {state : State T S} {next : Turn T D} (h : Between add init out frontier turns emitted state)
    (hadvances : Advances [frontier] [next.frontier])
    (hbatches : ∀ batch ∈ next.batches, beyond [next.frontier] batch.1 = false) :
    ∃ after output, some (turn add init out internal state next) = some (after, output) ∧
      (∀ record ∈ output, beyond [next.frontier] record.1 = true) ∧
      Between add init out next.frontier (turns ++ [next]) (emitted ++ output) after := by
  obtain ⟨stash, notificator, hfold, hfrontiers, hsession, haccount⟩ :=
    stash_batches add init out internal next.batches
      (Notificator.session_new h.past hadvances) (h.account.open_session hadvances) hbatches
  obtain ⟨left, output, after, hloop, hsame, hpast, hleft, hbeyond, hdone⟩ := haccount.finish hsession
  rw [hfrontiers] at hsame hleft hbeyond
  refine ⟨⟨left, after.inner⟩, output, ?_, hbeyond, ?_, hleft, ?_⟩
  · unfold turn
    rw [hfold]
    dsimp only
    rw [hloop]
  · rw [hsame] at hpast
    exact hpast
  · rw [List.flatMap_append, List.flatMap_singleton]
    obtain ⟨frontiers, inner⟩ := after
    obtain rfl : frontiers = [next.frontier] := hsame
    exact hdone

/-- Once the frontier is empty and the operator has been scheduled, what has been emitted for each time
    is what all its batches add up to.  Nothing was emitted before the frontier had passed its time. -/
theorem turns_exact (add : S → List D → S) (init : S) (out : T → S → List R) (internal : Internal)
    {initial : MutableAntichain T} {turns : List (Turn T D)} {final : Turn T D}
    (hvalid : ValidTurns initial (turns ++ [final])) (hempty : final.frontier.frontier = []) :
    ∃ outs, outputs (fun state next => some (turn add init out internal state next)) start (turns ++ [final]) =
        some outs ∧
      List.Forall₂ (fun next output => ∀ record ∈ output, beyond [next.frontier] record.1 = true)
        (turns ++ [final]) outs ∧
      ∀ time, recordsAt time outs.flatten =
        released add init out time (recordsAt time ((turns ++ [final]).flatMap Turn.batches)) := by
  have hstart : Between add init out initial [] [] (start : State T S) :=
    ⟨FrontierNotificator.past_from_iter [] [initial],
      fun time hwait => absurd hwait (Notificator.not_waiting_from_iter time), Account.start _ _ _ _⟩
  obtain ⟨outs, houts, hbeyond, last, hlast⟩ := exists_outputs (turn_spec internal) hstart hvalid
  refine ⟨outs, houts, hbeyond, fun time => ?_⟩
  rw [foldl_frontier, List.nil_append, List.nil_append] at hlast
  refine hlast.account.complete (fun other hwait => ?_) time
  have hnot := hlast.left other hwait
  rw [beyond_of_empty hempty] at hnot
  cases hnot

end Turns

/-! ### One result for each key -/

/-- The records of the batches of a time are those of the turns, with their times. -/
theorem recordsAt_records (time : T) (turns : List (Turn T D)) :
    recordsAt time (turns.flatMap Turn.records) = (recordsAt time (turns.flatMap Turn.batches)).flatten := by
  have hbatches : ∀ batches : List (T × List D),
      recordsAt time (batches.flatMap fun batch => batch.2.map fun datum => (batch.1, datum)) =
        (recordsAt time batches).flatten := by
    intro batches
    induction batches with
    | nil => rfl
    | cons batch batches ih =>
      have hcons : recordsAt time (batch :: batches) = recordsAt time [batch] ++ recordsAt time batches :=
        recordsAt_append time [batch] batches
      rw [List.flatMap_cons, recordsAt_append, ih, hcons, List.flatten_append]
      congr 1
      by_cases hsame : batch.1 = time
      · subst hsame
        rw [recordsAt_map_same]
        exact (List.append_nil _).symm.trans (congrArg List.flatten (recordsAt_singleton_same batch.1 batch.2)).symm
      · rw [recordsAt_map_other hsame]
        exact (congrArg List.flatten (recordsAt_singleton_other hsame batch.2)).symm
  induction turns with
  | nil => rfl
  | cons next turns ih =>
    rw [List.flatMap_cons, List.flatMap_cons, recordsAt_append, recordsAt_append, List.flatten_append, ih]
    exact congrArg (· ++ _) (hbatches next.batches)

/-- All records of a time are folded into the values of their keys. -/
theorem foldl_batches (fold : K → V → S → S) (default : S) (batches : List (List (K × V)))
    (aggs : AList fun _ : K => S) :
    batches.foldl (fun agg_time data =>
        data.foldl (fun agg_time record => entry_update agg_time record.1 default (fold record.1 record.2)) agg_time)
        aggs =
      batches.flatten.foldl
        (fun agg_time record => entry_update agg_time record.1 default (fold record.1 record.2)) aggs := by
  induction batches generalizing aggs with
  | nil => rfl
  | cons data batches ih =>
    rw [List.foldl_cons, ih, List.flatten_cons, List.foldl_append]

/-- What the records of a time make of an empty map: a value for each key that occurs, which is the fold
    over the records of the key. -/
theorem exists_keys (fold : K → V → S → S) (default : S) (emit : K → S → R) (records : List (K × V)) :
    ∃ keys : List K, keys.Nodup ∧ (∀ key, key ∈ keys ↔ ∃ val, (key, val) ∈ records) ∧
      (records.foldl (fun agg_time record => entry_update agg_time record.1 default (fold record.1 record.2))
          (∅ : AList fun _ : K => S)).entries.map (fun entry => emit entry.1 entry.2) =
        keys.map fun key =>
          emit key ((recordsAt key records).foldl (fun agg val => fold key val agg) default) := by
  have hlookup := lookup_foldl_entry_update fold default records ∅
  generalize records.foldl (fun agg_time record => entry_update agg_time record.1 default (fold record.1 record.2))
    (∅ : AList fun _ : K => S) = aggs at hlookup ⊢
  have hmem : ∀ key, key ∈ aggs ↔ recordsAt key records ≠ [] := by
    intro key
    rw [← AList.lookup_isSome, hlookup key]
    split
    case isTrue hnone => simp [hnone]
    case isFalse hsome => simp [hsome]
  refine ⟨aggs.keys, AList.keys_nodup aggs, fun key => ?_, map_entries aggs emit _ fun key hkey => ?_⟩
  · rw [← AList.mem_keys, hmem key, Ne, recordsAt_eq_nil, not_forall_not]
  · rw [hlookup key, if_neg ((hmem key).mp hkey), AList.lookup_empty]
    rfl

/-- For each time one result has been emitted for each key that occurred: the fold, in the order of
    arrival, over its records.  None was emitted before the frontier had passed its time. -/
def AggregateExact (fold : K → V → S → S) (default : S) (emit : K → S → R) (turns : List (Turn T (K × V)))
    (outs : List (List (T × R))) : Prop :=
  List.Forall₂ (fun next output => ∀ record ∈ output, beyond [next.frontier] record.1 = true) turns outs ∧
    ∀ time, ∃ keys : List K, keys.Nodup ∧
      (∀ key, key ∈ keys ↔ ∃ val, (time, (key, val)) ∈ turns.flatMap Turn.records) ∧
      recordsAt time outs.flatten = keys.map fun key =>
        emit key ((recordsAt key (recordsAt time (turns.flatMap Turn.records))).foldl
          (fun agg val => fold key val agg) default)

/-- One result has been emitted for each time that occurred: the fold, in the order of arrival, over its
    batches.  None was emitted before the frontier had passed its time. -/
def AccumulateExact (default : S) (logic : S → List D → S) (turns : List (Turn T D))
    (outs : List (List (T × S))) : Prop :=
  List.Forall₂ (fun next output => ∀ record ∈ output, beyond [next.frontier] record.1 = true) turns outs ∧
    ∀ time,
      ((∀ data, (time, data) ∉ turns.flatMap Turn.batches) → recordsAt time outs.flatten = []) ∧
      ((∃ data, (time, data) ∈ turns.flatMap Turn.batches) → recordsAt time outs.flatten =
        [(recordsAt time (turns.flatMap Turn.batches)).foldl logic default])

/-- Once the frontier is empty and the operator has been scheduled, `aggregate` has emitted what it
    should. -/
theorem aggregate_exact (fold : K → V → S → S) (default : S) (emit : K → S → R) (internal : Internal)
    {initial : MutableAntichain T} {turns : List (Turn T (K × V))} {final : Turn T (K × V)}
    (hvalid : ValidTurns initial (turns ++ [final])) (hempty : final.frontier.frontier = []) :
    ∃ outs, outputs (fun state next => some (aggregate fold default emit internal state next)) start
        (turns ++ [final]) = some outs ∧ AggregateExact fold default emit (turns ++ [final]) outs := by
  obtain ⟨outs, houts, hbeyond, hreleased⟩ := turns_exact
    (fun agg_time data =>
      data.foldl (fun agg_time record => entry_update agg_time record.1 default (fold record.1 record.2)) agg_time)
    (∅ : AList fun _ : K => S) (fun _ aggs => aggs.entries.map fun entry => emit entry.1 entry.2) internal hvalid hempty
  refine ⟨outs, houts, hbeyond, fun time => ?_⟩
  obtain ⟨keys, hnodup, hmem, hresults⟩ :=
    exists_keys fold default emit (recordsAt time ((turns ++ [final]).flatMap Turn.records))
  refine ⟨keys, hnodup, fun key => ?_, ?_⟩
  · rw [hmem key]
    exact exists_congr fun val => mem_recordsAt
  · rw [← hresults, hreleased time, recordsAt_records]
    unfold released
    rw [foldl_batches]
    split
    case isTrue hnone =>
      rw [List.isEmpty_iff.mp hnone]
      rfl
    case isFalse => rfl

/-- Once the frontier is empty and the operator has been scheduled, `accumulate` has emitted what it
    should. -/
theorem accumulate_exact (default : S) (logic : S → List D → S) (internal : Internal)
    {initial : MutableAntichain T} {turns : List (Turn T D)} {final : Turn T D}
    (hvalid : ValidTurns initial (turns ++ [final])) (hempty : final.frontier.frontier = []) :
    ∃ outs, outputs (fun state next => some (accumulate default logic internal state next)) start
        (turns ++ [final]) = some outs ∧ AccumulateExact default logic (turns ++ [final]) outs := by
  obtain ⟨outs, houts, hbeyond, hreleased⟩ :=
    turns_exact logic default (fun _ accum => [accum]) internal hvalid hempty
  refine ⟨outs, houts, hbeyond, fun time => ?_⟩
  rw [hreleased time, ← recordsAt_eq_nil]
  unfold released
  constructor
  · intro hnone
    rw [hnone]
    rfl
  · rintro ⟨data, hdata⟩
    rw [if_neg]
    intro hnone
    exact recordsAt_eq_nil.mp (List.isEmpty_iff.mp hnone) data hdata

/-- A `logic` that adds the records of a batch one after the other folds over all records of a time. -/
theorem foldl_logic (add : S → D → S) (default : S) (time : T) (turns : List (Turn T D)) :
    (recordsAt time (turns.flatMap Turn.batches)).foldl (fun accum data => data.foldl add accum) default =
      (recordsAt time (turns.flatMap Turn.records)).foldl add default := by
  rw [recordsAt_records, List.foldl_flatten]

end Aggregate

open Aggregate in
/-- Operators that are notified emit exactly once and completely: `delay` each record, `aggregate` one
    result for each time and key, and `accumulate` one for each time.  If the batches of a time are added
    record by record, this last is the fold over all records of the time. -/
theorem notified_operators_exact (internal : Internal) :
    (∀ (D F : Type) (func : F → D → T → F × T) (first : F) (initial : MutableAntichain T)
      (turns : List (Turn T D)) (final : Turn T D), (∀ state datum time, time ≤ (func state datum time).2) →
      ValidTurns initial (turns ++ [final]) → final.frontier.frontier = [] →
      ∃ outs, outputs (Delay.turn func internal) (Delay.start first) (turns ++ [final]) = some outs ∧
        Delay.Exact func first (turns ++ [final]) outs) ∧
    (∀ (K V S R : Type) (_ : DecidableEq K) (fold : K → V → S → S) (default : S) (emit : K → S → R)
      (initial : MutableAntichain T) (turns : List (Turn T (K × V))) (final : Turn T (K × V)),
      ValidTurns initial (turns ++ [final]) → final.frontier.frontier = [] →
      ∃ outs, outputs (fun state next => some (aggregate fold default emit internal state next)) start
          (turns ++ [final]) = some outs ∧ AggregateExact fold default emit (turns ++ [final]) outs) ∧
    (∀ (D S : Type) (default : S) (logic : S → List D → S) (initial : MutableAntichain T)
      (turns : List (Turn T D)) (final : Turn T D),
      ValidTurns initial (turns ++ [final]) → final.frontier.frontier = [] →
      (∃ outs, outputs (fun state next => some (accumulate default logic internal state next)) start
          (turns ++ [final]) = some outs ∧ AccumulateExact default logic (turns ++ [final]) outs) ∧
      ∀ add : S → D → S, (∀ accum data, logic accum data = data.foldl add accum) → ∀ time,
        (recordsAt time ((turns ++ [final]).flatMap Turn.batches)).foldl logic default =
          (recordsAt time ((turns ++ [final]).flatMap Turn.records)).foldl add default) := by
  refine ⟨?_, ?_, ?_⟩
  · intro D F func first initial turns final hfunc hvalid hempty
    exact Delay.delay_exact hfunc internal first hvalid hempty
  · intro K V S R _ fold default emit initial turns final hvalid hempty
    exact aggregate_exact fold default emit internal hvalid hempty
  · intro D S default logic initial turns final hvalid hempty
    refine ⟨accumulate_exact default logic internal hvalid hempty, fun add hlogic time => ?_⟩
    obtain rfl : logic = fun accum data => data.foldl add accum := funext fun accum => funext (hlogic accum)
    exact foldl_logic add default time (turns ++ [final])

open Aggregate in
/-- Two records at time 0, delayed to 1, aggregated by key, and counted. -/
theorem notified_operators_exact_example :
    ∃ turns : List (Turn (Unsigned 64) (ℕ × ℕ)), ∃ final,
      ValidTurns (MutableAntichain.new_bottom 0) (turns ++ [final]) ∧ final.frontier.frontier = [] ∧
      (∃ outs, outputs (Delay.turn (fun (state : Unit) _ time => (state, max time 1)) ⟨0, 0⟩) (Delay.start ())
          (turns ++ [final]) = some outs ∧
        Delay.Exact (fun (state : Unit) _ time => (state, max time 1)) () (turns ++ [final]) outs) ∧
      (∃ outs, outputs (fun state next => some
          (aggregate (fun _ val agg => agg + val) 0 (fun key agg => (key, agg)) ⟨0, 0⟩ state next)) start
          (turns ++ [final]) = some outs ∧
        AggregateExact (fun _ val agg => agg + val) 0 (fun key agg => (key, agg)) (turns ++ [final]) outs) ∧
      ∃ outs, outputs (fun state next => some (accumulate 0 (fun sum data => sum + data.length) ⟨0, 0⟩ state next))
          start (turns ++ [final]) = some outs ∧
        AccumulateExact 0 (fun sum data => sum + data.length) (turns ++ [final]) outs := by
  have hvalid : ValidTurns (MutableAntichain.new_bottom 0)
      ([⟨MutableAntichain.new_bottom 0, [(0, [(1, 10), (2, 20)])]⟩] ++ [⟨MutableAntichain.new, []⟩] :
        List (Turn (Unsigned 64) (ℕ × ℕ))) := by
    refine ⟨Advances.refl _, by decide +kernel, ?_, by decide +kernel, trivial⟩
    exact List.Forall₂.cons (fun time hmem => absurd hmem List.not_mem_nil) List.Forall₂.nil
  obtain ⟨hdelay, haggregate, haccumulate⟩ := notified_operators_exact (T := Unsigned 64) ⟨0, 0⟩
  exact ⟨_, _, hvalid, rfl, hdelay _ _ _ () _ _ _ (fun _ _ time => le_max_left time 1) hvalid rfl,
    haggregate _ _ _ _ inferInstance _ 0 _ _ _ _ hvalid rfl, (haccumulate _ _ 0 _ _ _ _ hvalid rfl).1⟩

end Timely
