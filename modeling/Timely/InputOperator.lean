/-
  Timely/InputOperator.lean
  =========================
  **The input operator keeps to the interface** (`timely/src/dataflow/operators/input.rs`).

  The owner of a handle sends records and advances its time whenever the dataflow does
  not run, and the operator reports this when it is scheduled next.  It holds one
  capability, at the time of the handle, until the handle is closed.
-/
import Timely.Input
import Timely.ProbeRuns

set_option linter.unusedSectionVars false

namespace Timely

open Library

variable {S T D : Type} [PartialOrder T] [DecidableLE T] [DecidableEq T] [Ord T] [LinearExtension T]

/-! ### The operator -/

/-- What the owner of a handle calls. -/
inductive InputCall (T D : Type) where
  | send (data : D)
  | send_batch (buffer : List D)
  | advance_to (next : T)
  | close

namespace InputState

/-- One call; `none` where time would be rewound, or the handle is gone. -/
def perform (state : InputState T D) : InputCall T D → Option (InputState T D)
  | .send data => if state.closed then none else some { state with handle := state.handle.send data }
  | .send_batch buffer =>
    if state.closed then none else some { state with handle := state.handle.send_batch buffer }
  | .advance_to next =>
    if state.closed then none
    else (state.handle.advance_to next).map fun handle => { state with handle := handle }
  | .close => if state.closed then none else some ⟨state.handle.close_epoch, true⟩

/-- What the operator holds at its output: a capability at the time of the handle. -/
def held (state : InputState T D) : ℕ → T → ℤ :=
  if state.closed then 0 else at_port 0 state.handle.now_at 1

end InputState

/-- An input operator for one stream, and what the owner of its handle calls before the operator is
    scheduled the next times. -/
structure InputOperator (T D : Type) [Ord T] where
  state : InputState T D
  calls : List (List (InputCall T D))

/-- A stream is registered, with a capability at the time of the handle in place of the initial one. -/
def Handle.register [Timestamp T] (handle : Handle T D) (tee : List (Exchange T D)) : Handle T D :=
  { handle.flush_pending with
    pushers := handle.flush_pending.pushers ++
      [{ pusher := Counter.new
         tee := tee
         progress := (ChangeBatch.new.update Timestamp.minimum (-1)).update handle.now_at 1
         internal := ChangeBatch.new
         produced := ChangeBatch.new }] }

namespace InputOperator

/-- A new input, with what its owner will call. -/
def new_input [Timestamp T] (tee : List (Exchange T D)) (calls : List (List (InputCall T D))) : InputOperator T D where
  state := ⟨Handle.register ⟨[], [], Timestamp.minimum⟩ tee, false⟩
  calls := calls

/-- Report what the handle has counted. -/
def schedule (operator : InputOperator T D) (progress : SharedProgress T) :
    Option (Bool × InputOperator T D × SharedProgress T) :=
  ((operator.calls.headD []).foldlM InputState.perform operator.state).bind fun state =>
    (state.handle.pushers[0]?).bind fun registered =>
      (Probe.drain_into_first registered.progress progress.internals).bind fun internals =>
        (Probe.drain_into_first registered.pusher.produced progress.produceds).map fun produceds =>
          (false,
            { state :=
                { state with
                  handle :=
                    { state.handle with
                      pushers := state.handle.pushers.set 0
                        { registered with
                          progress := internals.1
                          pusher := { registered.pusher with produced := produceds.1 } } } }
              calls := operator.calls.tail },
            { progress with
              internals := internals.2
              produceds := produceds.2 })

/-- Nothing is done when the frontiers have been set. -/
instance : Operate (InputOperator T D) T where
  schedule := schedule
  set_external_summary operator progress := some (operator, progress)

end InputOperator

/-! ### The calls of the owner -/

namespace InputState

variable [PathSummary S T] {summary : List (List (Antichain S))} {state after : InputState T D}

/-- What comes of one stream of a handle is a run of acts, which the stream has counted. -/
structure Moves (summary : List (List (Antichain S))) (state after : InputState T D) : Prop where
  moves : ∀ registered, state.handle.pushers = [registered] → ∃ counted acts,
    after.handle.pushers = [counted] ∧ Acted summary state.held acts after.held ∧
    Totals acts 0 (at_first fun time => counted.progress.value time - registered.progress.value time)
      (at_first fun time => counted.pusher.produced.value time - registered.pusher.produced.value time)

namespace Moves

theorem refl (summary : List (List (Antichain S))) (state : InputState T D) : Moves summary state state := by
  refine ⟨fun registered hregistered => ⟨registered, [], hregistered, acted_nil _ _, rfl, ?_, ?_⟩⟩
  · funext port time
    exact (congrArg (ite _ · 0) (sub_self _)).trans (ite_self 0)
  · funext port time
    exact (congrArg (ite _ · 0) (sub_self _)).trans (ite_self 0)

theorem trans {middle : InputState T D} (h : Moves summary state middle) (h' : Moves summary middle after) :
    Moves summary state after := by
  refine ⟨fun registered hregistered => ?_⟩
  obtain ⟨counted, acts, hcounted, hacted, htotals⟩ := h.moves registered hregistered
  obtain ⟨last, more, hlast, hmore, hadded⟩ := h'.moves counted hcounted
  have hsums := htotals.append hadded
  rw [at_first_add, at_first_add, add_zero] at hsums
  refine ⟨last, acts ++ more, hlast, hacted.append hmore, ?_⟩
  simp only [sub_add_sub_cancel'] at hsums
  exact hsums

/-- Records that wait in the buffer have not been counted. -/
theorem of_buffer (state : InputState T D) (buffer1 : List D) :
    Moves summary state { state with handle := { state.handle with buffer1 := buffer1 } } :=
  ⟨(refl summary state).moves⟩

/-- An open handle holds a capability at its time. -/
theorem held_pos (hopen : state.closed = false) : 0 < state.held 0 state.handle.now_at := by
  unfold InputState.held
  rw [if_neg (Bool.eq_false_iff.mp hopen)]
  unfold at_port
  rw [if_pos ⟨rfl, rfl⟩]
  exact Int.one_pos

/-- Records are pushed at the time of the handle, in a session that its capability opens. -/
theorem push (hopen : state.closed = false) {now : T} (hnow : now = state.handle.now_at) (data rest : List D) :
    Moves summary state
      { state with
        handle :=
          { state.handle with
            pushers := state.handle.pushers.map (Registered.push (some ⟨now, data⟩))
            buffer1 := rest } } := by
  subst hnow
  refine ⟨fun registered hregistered => ?_⟩
  have hpresent : OperatorAct.Done summary (Holdings.fresh state.held) (.present 0 state.handle.now_at) _ :=
    OperatorAct.Done.present (held_pos hopen)
  have hrun : ∃ last, Run (OperatorAct.Done summary) (Holdings.fresh state.held)
      [.present 0 state.handle.now_at, .send 0 state.handle.now_at data.length] last ∧
        last.held = state.held :=
    ⟨_, (Run.nil.snoc hpresent).snoc (OperatorAct.Done.send (Or.inl ⟨rfl, rfl⟩)), rfl⟩
  refine ⟨registered.push (some ⟨state.handle.now_at, data⟩), _, ?_, ⟨hrun⟩, ?_, ?_, ?_⟩
  · exact (congrArg (List.map _) hregistered).trans rfl
  · simp [OperatorAct.consumed]
  · funext port time
    exact (congrArg (ite _ · 0) (sub_self _)).trans (ite_self 0)
  · have hcounted : ∀ time,
        (registered.push (some ⟨state.handle.now_at, data⟩)).pusher.produced.value time -
          registered.pusher.produced.value time = if state.handle.now_at = time then (data.length : ℤ) else 0 := by
      intro time
      change (registered.pusher.produced.update state.handle.now_at data.length).value time - _ = _
      rw [ChangeBatch.value_update, add_sub_cancel_left]
    simp only [hcounted, at_first_ite]
    simp [OperatorAct.produced]

theorem flush (hopen : state.closed = false) :
    Moves summary state { state with handle := state.handle.flush } :=
  push hopen rfl state.handle.buffer1 []

theorem flush_pending (hopen : state.closed = false) :
    Moves summary state { state with handle := state.handle.flush_pending } := by
  unfold Handle.flush_pending
  split
  · exact refl summary state
  · exact flush hopen

theorem send (hopen : state.closed = false) (data : D) :
    Moves summary state { state with handle := state.handle.send data } := by
  have hbuffered : Moves summary state
      { state with handle := { state.handle with buffer1 := state.handle.buffer1 ++ [data] } } :=
    of_buffer state _
  unfold Handle.send
  dsimp only
  split
  · exact hbuffered.trans (flush hopen)
  · exact hbuffered

theorem now_at_flush_pending (handle : Handle T D) : handle.flush_pending.now_at = handle.now_at := by
  unfold Handle.flush_pending
  split <;> rfl

theorem send_batch (hopen : state.closed = false) (buffer : List D) :
    Moves summary state { state with handle := state.handle.send_batch buffer } := by
  unfold Handle.send_batch
  split
  · exact refl summary state
  · have hflushed : ({ state with handle := state.handle.flush_pending } : InputState T D).closed = false := hopen
    exact (flush_pending hopen).trans (push hflushed (now_at_flush_pending _).symm buffer _)

/-- Flushing a counter sends nothing. -/
theorem produced_push_none (registered : Registered T D) (time : T) :
    (registered.push none).pusher.produced.value time = registered.pusher.produced.value time :=
  ChangeBatch.value_is_empty _ time

/-- The capability for a time is exchanged for one at a later time. -/
theorem advance (hopen : state.closed = false) {next : T} (hle : state.handle.now_at ≤ next)
    (hafter : after.held = at_port 0 next 1)
    (hpushers : ∀ registered, state.handle.pushers = [registered] → after.handle.pushers =
      [((registered.push none).update_progress state.handle.now_at (-1)).update_progress next 1]) :
    Moves summary state after := by
  refine ⟨fun registered hregistered => ?_⟩
  have hheld : state.held = at_port 0 state.handle.now_at 1 := if_neg (Bool.eq_false_iff.mp hopen)
  have hdelay : OperatorAct.Done summary (Holdings.fresh state.held) (.delay 0 state.handle.now_at next)
      (Holdings.fresh (state.held + at_port 0 next 1)) := OperatorAct.Done.delay (held_pos hopen) hle
  have hdrop : OperatorAct.Done summary (Holdings.fresh (state.held + at_port 0 next 1))
      (.drop 0 state.handle.now_at)
      (Holdings.fresh (state.held + at_port 0 next 1 + at_port 0 state.handle.now_at (-1))) := by
    refine OperatorAct.Done.drop (add_pos_of_pos_of_nonneg (held_pos hopen) ?_)
    unfold at_port
    split
    · exact Int.one_nonneg
    · exact le_rfl
  refine ⟨_, [.delay 0 state.handle.now_at next, .drop 0 state.handle.now_at],
    hpushers registered hregistered, ⟨_, (Run.nil.snoc hdelay).snoc hdrop, ?_⟩, ?_, ?_, ?_⟩
  · rw [hafter, hheld, add_right_comm, at_port_add_neg, zero_add]
    rfl
  · simp [OperatorAct.consumed]
  · have hcounted : ∀ time, (((registered.push none).update_progress state.handle.now_at (-1)).update_progress
        next 1).progress.value time - registered.progress.value time =
          (if next = time then 1 else 0) + if state.handle.now_at = time then -1 else 0 := by
      intro time
      change ((registered.progress.update _ _).update _ _).value time - _ = _
      rw [ChangeBatch.value_update, ChangeBatch.value_update]
      ring
    simp only [hcounted, ← at_first_add, at_first_ite]
    simp [OperatorAct.internal]
  · have hnothing : ∀ time, (((registered.push none).update_progress state.handle.now_at (-1)).update_progress
        next 1).pusher.produced.value time - registered.pusher.produced.value time = 0 :=
      fun time => sub_eq_zero_of_eq (produced_push_none registered time)
    simp only [hnothing]
    simp [OperatorAct.produced, at_first, funext_iff]

theorem advance_to (hopen : state.closed = false) {next : T} {handle : Handle T D}
    (h : state.handle.advance_to next = some handle) : Moves summary state { state with handle := handle } := by
  unfold Handle.advance_to at h
  split at h
  case isFalse => cases h
  case isTrue hle =>
    split at h
    case isTrue =>
      cases h
      exact refl summary state
    case isFalse =>
      cases h
      have hnow := now_at_flush_pending state.handle
      have hflushed : ({ state with handle := state.handle.flush_pending } : InputState T D).closed = false := hopen
      refine (flush_pending hopen).trans (advance hflushed (hnow.trans_le hle) ?_ fun registered hregistered => ?_)
      · exact if_neg (Bool.eq_false_iff.mp hopen)
      · change ((List.map _ _).map _ : List (Registered T D)) = _
        rw [hnow]
        exact congrArg (List.map _) (congrArg (List.map _) hregistered)

/-- The capability is dropped. -/
theorem close (hopen : state.closed = false) : Moves summary state ⟨state.handle.close_epoch, true⟩ := by
  have hflushed : ({ state with handle := state.handle.flush_pending } : InputState T D).closed = false := hopen
  refine (flush_pending hopen).trans ⟨fun registered hregistered => ?_⟩
  have hnow := now_at_flush_pending state.handle
  have hheld : InputState.held { state with handle := state.handle.flush_pending } =
      at_port 0 state.handle.now_at 1 :=
    (if_neg (Bool.eq_false_iff.mp hopen)).trans (congrArg (at_port 0 · 1) hnow)
  have hpos := held_pos hflushed
  rw [hheld] at hpos ⊢
  rw [hnow] at hpos
  have hdrop : OperatorAct.Done summary (Holdings.fresh (at_port 0 state.handle.now_at 1))
      (.drop 0 state.handle.now_at)
      (Holdings.fresh (at_port 0 state.handle.now_at 1 + at_port 0 state.handle.now_at (-1))) :=
    OperatorAct.Done.drop hpos
  refine ⟨(registered.push none).update_progress state.handle.now_at (-1), [.drop 0 state.handle.now_at],
    congrArg (List.map _) hregistered, ⟨_, Run.nil.snoc hdrop, ?_⟩, ?_, ?_, ?_⟩
  · exact at_port_add_neg 0 _
  · simp [OperatorAct.consumed]
  · have hcounted : ∀ time, ((registered.push none).update_progress state.handle.now_at (-1)).progress.value time -
        registered.progress.value time = if state.handle.now_at = time then -1 else 0 := by
      intro time
      change (registered.progress.update _ _).value time - _ = _
      rw [ChangeBatch.value_update, add_sub_cancel_left]
    simp only [hcounted, at_first_ite]
    simp [OperatorAct.internal]
  · have hnothing : ∀ time, ((registered.push none).update_progress state.handle.now_at (-1)).pusher.produced.value
        time - registered.pusher.produced.value time = 0 :=
      fun time => sub_eq_zero_of_eq (produced_push_none registered time)
    simp only [hnothing]
    simp [OperatorAct.produced, at_first, funext_iff]

/-- Whatever the owner calls. -/
theorem perform {call : InputCall T D} (h : state.perform call = some after) : Moves summary state after := by
  cases hclosed : state.closed with
  | true => cases call <;> simp [InputState.perform, hclosed] at h
  | false =>
    have hopen : ¬ state.closed = true := Bool.eq_false_iff.mp hclosed
    cases call with
    | send data =>
      rw [InputState.perform, if_neg hopen] at h
      cases h
      exact send hclosed data
    | send_batch buffer =>
      rw [InputState.perform, if_neg hopen] at h
      cases h
      exact send_batch hclosed buffer
    | advance_to next =>
      rw [InputState.perform, if_neg hopen] at h
      obtain ⟨handle, hhandle, rfl⟩ := Option.map_eq_some_iff.mp h
      exact advance_to hclosed hhandle
    | close =>
      rw [InputState.perform, if_neg hopen] at h
      cases h
      exact close hclosed

/-- However often the owner calls. -/
theorem perform_all {calls : List (InputCall T D)} (h : calls.foldlM InputState.perform state = some after) :
    Moves summary state after :=
  (Run.of_foldlM h).invariant (P := fun _ last => Moves summary state last) (refl summary state)
    fun hbefore hstep => hbefore.trans (perform hstep)

end Moves

end InputState

/-! ### Reports -/

namespace InputOperator

/-- One stream, which has nothing to report. -/
def Keeps (operator : InputOperator T D) : Prop :=
  ∃ registered, operator.state.handle.pushers = [registered] ∧ (∀ time, registered.progress.value time = 0) ∧
    ∀ time, registered.pusher.produced.value time = 0

variable [Timestamp T] [PathSummary S T] {operator after : InputOperator T D} {shared shared' : SharedProgress T}

/-- When the operator is scheduled it reports all that its owner has done. -/
theorem acted_schedule {summary : List (List (Antichain S))} {flag : Bool} (hkeeps : operator.Keeps)
    (hshaped : shared.Shaped 0 1) (h : operator.schedule shared = some (flag, after, shared')) :
    after.Keeps ∧ shared'.Shaped 0 1 ∧ ∃ acts, Acted summary operator.state.held acts after.state.held ∧
      Totals acts (sums shared'.consumeds - sums shared.consumeds)
        (sums shared'.internals - sums shared.internals) (sums shared'.produceds - sums shared.produceds) := by
  obtain ⟨state, hcalls, h⟩ := Option.bind_eq_some_iff.mp h
  obtain ⟨found, hfound, h⟩ := Option.bind_eq_some_iff.mp h
  obtain ⟨⟨progress, internals⟩, hinternals, h⟩ := Option.bind_eq_some_iff.mp h
  obtain ⟨⟨produced, produceds⟩, hproduceds, heq⟩ := Option.map_eq_some_iff.mp h
  cases heq
  obtain ⟨registered, hregistered, hprogress, hproduced⟩ := hkeeps
  have hmoves : InputState.Moves summary operator.state state := InputState.Moves.perform_all hcalls
  obtain ⟨counted, acts, hcounted, hacted, htotals⟩ := hmoves.moves registered hregistered
  rw [hcounted] at hfound
  cases hfound
  obtain ⟨hlength, hleft, hsums⟩ := Probe.sums_drain_into_first hinternals
  obtain ⟨hlength', hleft', hsums'⟩ := Probe.sums_drain_into_first hproduceds
  refine ⟨⟨_, congrArg (List.set · 0 _) hcounted, hleft, hleft'⟩, ⟨hshaped.consumeds,
    hlength.trans hshaped.internals, hlength'.trans hshaped.produceds⟩, acts, hacted, ?_⟩
  rw [sub_self, hsums, hsums']
  simp only [hprogress, hproduced, sub_zero] at htotals
  exact htotals

/-- Input operators keep to the interface. -/
def interface (S T D : Type) [PartialOrder T] [DecidableLE T] [DecidableEq T] [Ord T] [LinearExtension T]
    [Timestamp T] [PathSummary S T] : Interface (InputOperator T D) S T where
  held operator := operator.state.held
  inputs _ := 0
  outputs _ := 1
  Keeps operator _ := operator.Keeps
  call := by
    intro operator operator' shared shared' summary hkeeps hshaped hcall
    rcases hcall with ⟨flag, hschedule⟩ | hset
    · exact acted_schedule hkeeps hshaped hschedule
    · cases hset
      refine ⟨hkeeps, hshaped, [], acted_nil _ _, ?_⟩
      simp only [sub_self]
      exact ⟨rfl, rfl, rfl⟩

end InputOperator

end Timely
