/-
  Timely/ProbeRuns.lean
  =====================
  **Probes keep to the interface** (`timely/src/dataflow/operators/probe.rs`).

  A probe forwards what it takes from its input, at the same time and in sessions that
  it opens with the messages.  It has one capability, which it gives up in its first
  call.
-/
import Timely.GenericRuns
import Timely.Probe

set_option linter.unusedSectionVars false

namespace Timely

open Library

variable {S T D : Type} [PartialOrder T] [DecidableLE T] [DecidableEq T] [Ord T] [LinearExtension T]
  [Timestamp T] [PathSummary S T]

/-! ### Forwarding -/

/-- Taking a message, and opening a session for it. -/
def taking (messages : List (Message T D)) : List (OperatorAct T) :=
  messages.flatMap fun message =>
    [.consume 0 message.time message.data.length, .answer 0 message.time 0 message.time]

theorem consumed_taking (messages : List (Message T D)) :
    ((taking messages).map OperatorAct.consumed).sum = at_first (tally (PullCounter.counts messages)) := by
  induction messages with
  | nil =>
    funext port time
    exact (ite_self 0).symm
  | cons message messages ih =>
    have hsum : ((taking (message :: messages)).map OperatorAct.consumed).sum =
        at_port 0 message.time (message.data.length : ℤ) + ((taking messages).map OperatorAct.consumed).sum := by
      simp [taking, OperatorAct.consumed]
    rw [hsum, ih, ← at_first_ite, at_first_add]
    congr 1
    funext time
    exact (tally_cons (message.time, (message.data.length : ℤ)) (PullCounter.counts messages) time).symm

theorem internal_taking (messages : List (Message T D)) :
    ((taking messages).map OperatorAct.internal).sum = 0 ∧ ((taking messages).map OperatorAct.produced).sum = 0 := by
  induction messages with
  | nil => exact ⟨rfl, rfl⟩
  | cons message messages ih =>
    obtain ⟨hinternal, hproduced⟩ := ih
    unfold taking at *
    rw [List.flatMap_cons, List.map_append, List.map_append, List.sum_append, List.sum_append, hinternal,
      hproduced]
    simp [OperatorAct.internal, OperatorAct.produced]

/-- Messages that have been taken may be answered at their times. -/
theorem exists_run_taking {summary : List (List (Antichain S))}
    (hpromised : ∀ time, Promised summary 0 time 0 time) {messages : List (Message T D)}
    (hnonempty : ∀ message ∈ messages, message.data ≠ []) (holdings : Holdings T) :
    ∃ last, Run (OperatorAct.Done summary) holdings (taking messages) last ∧ last.held = holdings.held ∧
      (∀ time, holdings.opened 0 time → last.opened 0 time) ∧
      ∀ message ∈ messages, last.opened 0 message.time := by
  induction messages generalizing holdings with
  | nil => exact ⟨holdings, Run.nil, rfl, fun _ => id, fun _ hmem => absurd hmem List.not_mem_nil⟩
  | cons message messages ih =>
    have hconsume : OperatorAct.Done summary holdings (.consume 0 message.time message.data.length) _ :=
      OperatorAct.Done.consume (List.length_pos_iff.mpr (hnonempty message List.mem_cons_self))
    have hanswer : OperatorAct.Done summary
        { holdings with
          seen := fun other early => (other = 0 ∧ early = message.time) ∨ holdings.seen other early }
        (.answer 0 message.time 0 message.time) _ :=
      OperatorAct.Done.answer (Or.inl ⟨rfl, rfl⟩) (hpromised message.time)
    obtain ⟨last, hrun, hheld, hopened, hmessages⟩ :=
      ih (fun other hother => hnonempty other (List.mem_cons_of_mem _ hother)) _
    refine ⟨last, ((Run.nil.snoc hconsume).snoc hanswer).append hrun, hheld,
      fun time hbefore => hopened time (Or.inr hbefore), fun other hother => ?_⟩
    rcases List.mem_cons.mp hother with rfl | hmem
    · exact hopened _ (Or.inl ⟨rfl, rfl⟩)
    · exact hmessages other hmem

namespace Probe

/-- Messages are forwarded in sessions at their times. -/
theorem exists_sent_forward {opened : T → Prop} {messages : List (Message T D)}
    (hopened : ∀ message ∈ messages, opened message.time) {output : Buffer T D} (hwaits : output.Waits opened) :
    ∃ sent, Sends opened output (messages.foldl forward output) sent := by
  induction messages generalizing output with
  | nil => exact ⟨[], Sends.nothing (fun _ => rfl) hwaits⟩
  | cons message messages ih =>
    have hmessage := hopened message List.mem_cons_self
    obtain ⟨sent, hsent⟩ := Session.exists_sent_provide_all hmessage hwaits [.give_vec message.data]
    obtain ⟨more, hmore⟩ := ih (fun other hother => hopened other (List.mem_cons_of_mem _ hother)) hsent.waits
    exact ⟨sent ++ more, hsent.trans hmore⟩

/-- Draining counts into the first batch adds them at the first port. -/
theorem sums_drain_into_first {counts left : ChangeBatch T} {batches after : List (ChangeBatch T)}
    (h : drain_into_first counts batches = some (left, after)) :
    after.length = batches.length ∧ (∀ time, left.value time = 0) ∧
      sums after - sums batches = at_first counts.value := by
  obtain ⟨batch, hbatch, heq⟩ := Option.map_eq_some_iff.mp h
  obtain ⟨rfl, rfl⟩ := Prod.mk.inj heq
  refine ⟨List.length_set, fun time => (ChangeBatch.value_drain_into counts batch time).2, ?_⟩
  rw [sums_set hbatch _ counts.value fun time => ?_, add_sub_cancel_left]
  · rfl
  · rw [(ChangeBatch.value_drain_into counts batch time).1, add_comm]

/-- The initial capability, until it is discarded. -/
def held (probe : Probe T D) : ℕ → T → ℤ := if probe.started then 0 else at_port 0 Timestamp.minimum 1

/-- Nothing waits to be sent or reported, and what comes at the input may come at the output. -/
structure Keeps (probe : Probe T D) (summary : List (List (Antichain S))) : Prop where
  consumed : ∀ time, probe.input.consumed.value time = 0
  produced : ∀ time, probe.output.pusher.produced.value time = 0
  buffer : probe.output.buffer = []
  promised : ∀ time, Promised summary 0 time 0 time

variable {probe after : Probe T D} {shared shared' : SharedProgress T} {summary : List (List (Antichain S))}

variable (summary) in
/-- The initial capability is dropped in the first call. -/
theorem acted_discard {internals : List (ChangeBatch T)} {batches : List (ChangeBatch T)}
    (h : probe.discard batches = some internals) :
    internals.length = batches.length ∧ ∃ acts, Acted summary probe.held acts 0 ∧
      Totals acts 0 (sums internals - sums batches) 0 := by
  unfold discard at h
  unfold held
  split at h
  case isTrue hstarted =>
    cases h
    refine ⟨rfl, [], ?_, rfl, ?_, rfl⟩
    · rw [if_pos hstarted]
      exact acted_nil _ _
    · rw [sub_self]
      rfl
  case isFalse hstarted =>
    unfold update_at at h
    split at h
    case isFalse => cases h
    case isTrue hlength =>
      cases h
      have hbatch : batches[0]? = some (batches.get ⟨0, hlength⟩) := List.getElem?_eq_getElem hlength
      have hmodified : batches.modify 0 (fun batch => batch.update Timestamp.minimum (-1)) =
          batches.set 0 ((batches.get ⟨0, hlength⟩).update Timestamp.minimum (-1)) := by
        cases batches with
        | nil => cases hlength
        | cons batch batches => rfl
      have hdrop : OperatorAct.Done summary (Holdings.fresh (at_port 0 Timestamp.minimum 1))
          (.drop 0 Timestamp.minimum)
          (Holdings.fresh (at_port 0 Timestamp.minimum 1 + at_port 0 Timestamp.minimum (-1))) := by
        refine OperatorAct.Done.drop ?_
        simp [Holdings.fresh, at_port]
      rw [if_neg hstarted, hmodified]
      refine ⟨List.length_set, [.drop 0 Timestamp.minimum], ⟨_, Run.nil.snoc hdrop, at_port_add_neg 0 _⟩, ?_, ?_, ?_⟩
      · simp [OperatorAct.consumed]
      · rw [sums_set hbatch _ (fun time => if Timestamp.minimum = time then -1 else 0)
          fun time => ChangeBatch.value_update _ _ _ _, add_sub_cancel_left]
        change at_first _ = _
        rw [at_first_ite]
        simp [OperatorAct.internal]
      · simp [OperatorAct.produced]

/-- A probe forwards what it has taken, at the same times. -/
theorem acted_forward (hpromised : ∀ time, Promised summary 0 time 0 time) {messages : List (Message T D)}
    (hnonempty : ∀ message ∈ messages, message.data ≠ []) {output : Buffer T D} (hbuffer : output.buffer = []) :
    ∃ sent acts, (messages.foldl forward output).cease.buffer = [] ∧
      (∀ time, (messages.foldl forward output).cease.pusher.produced.value time =
        output.pusher.produced.value time + tally (counts_of sent) time) ∧
      Acted summary 0 acts 0 ∧
      Totals acts (at_first (tally (PullCounter.counts messages))) 0 (at_first (tally (counts_of sent))) := by
  obtain ⟨last, hrun, hheld, -, hopened⟩ := exists_run_taking hpromised hnonempty (Holdings.fresh 0)
  obtain ⟨sent, hsent⟩ := exists_sent_forward hopened (Buffer.waits_of_empty hbuffer)
  obtain ⟨hempty, more, hmore⟩ := Buffer.exists_sent_cease hsent.waits
  have hsends := hsent.trans hmore
  obtain ⟨hinternal, hproduced⟩ := internal_taking (T := T) messages
  refine ⟨sent ++ more, _, hempty, hsends.counted,
    ⟨last, hrun.append (run_sending hsends.allowed), hheld⟩, ?_, ?_, ?_⟩
  · rw [List.map_append, List.sum_append, consumed_sending, add_zero, consumed_taking]
  · rw [List.map_append, List.sum_append, hinternal, zero_add]
    refine (List.sum_eq_zero fun gained hgained => ?_).symm
    obtain ⟨act, hact, rfl⟩ := List.mem_map.mp hgained
    obtain ⟨message, -, rfl⟩ := List.mem_map.mp hact
    rfl
  · rw [List.map_append, List.sum_append, hproduced, zero_add, produced_sending]
    rfl

/-- Whenever a probe is called, what it does is a run of acts, which it reports. -/
theorem acted_schedule {flag : Bool} (hkeeps : probe.Keeps summary) (hshaped : shared.Shaped 1 1)
    (h : probe.schedule shared = some (flag, after, shared')) :
    after.Keeps summary ∧ shared'.Shaped 1 1 ∧ ∃ acts, Acted summary probe.held acts after.held ∧
      Totals acts (sums shared'.consumeds - sums shared.consumeds)
        (sums shared'.internals - sums shared.internals) (sums shared'.produceds - sums shared.produceds) := by
  obtain ⟨changes, -, h⟩ := Option.bind_eq_some_iff.mp h
  obtain ⟨internals, hinternals, h⟩ := Option.bind_eq_some_iff.mp h
  obtain ⟨⟨consumed, consumeds⟩, hconsumeds, h⟩ := Option.bind_eq_some_iff.mp h
  obtain ⟨⟨produced, produceds⟩, hproduceds, h⟩ := Option.map_eq_some_iff.mp h
  obtain ⟨messages, hvisited⟩ := PullCounter.visited_while_next forward
    { probe.input with pullable := probe.input.pullable ++ probe.arrivals 0 } probe.output
  obtain ⟨sent, acts, hempty, hcounted, hacted, htotals⟩ :=
    acted_forward hkeeps.promised hvisited.nonempty hkeeps.buffer
  obtain ⟨hlength, first, hdiscarded, hgained⟩ := acted_discard summary hinternals
  obtain ⟨hlength', hleft, hsums⟩ := sums_drain_into_first hconsumeds
  obtain ⟨hlength'', hleft', hsums'⟩ := sums_drain_into_first hproduceds
  rw [← hvisited.state] at hempty hcounted
  cases h
  refine ⟨⟨hleft, hleft', hempty, hkeeps.promised⟩, ⟨hlength'.trans hshaped.consumeds,
    hlength.trans hshaped.internals, hlength''.trans hshaped.produceds⟩, first ++ acts,
    hdiscarded.append hacted, ?_⟩
  have hall := hgained.append htotals
  rw [zero_add, add_zero, zero_add] at hall
  have htaken := funext fun time => (hvisited.consumed time).trans
    ((congrArg (· + tally (PullCounter.counts messages) time) (hkeeps.consumed time)).trans (zero_add _))
  have hsent := funext fun time => (hcounted time).trans
    ((congrArg (· + tally (counts_of sent) time) (hkeeps.produced time)).trans (zero_add _))
  rw [hsums, hsums']
  exact ⟨(congrArg at_first htaken).trans hall.consumed_eq, hall.internal_eq,
    (congrArg at_first hsent).trans hall.produced_eq⟩

/-- Probes keep to the interface. -/
def interface (S T D : Type) [PartialOrder T] [DecidableLE T] [DecidableEq T] [Ord T] [LinearExtension T]
    [Timestamp T] [PathSummary S T] : Interface (Probe T D) S T where
  held := Probe.held
  inputs _ := 1
  outputs _ := 1
  Keeps := Probe.Keeps
  call := by
    intro probe probe' shared shared' summary hkeeps hshaped hcall
    obtain ⟨flag, hschedule⟩ := scheduled_of_calls hcall
    exact acted_schedule hkeeps hshaped hschedule

end Probe

end Timely
