/-
  Timely/GenericRuns.lean
  =======================
  **Whatever their logic does, operators keep to the interface**
  (`timely/src/dataflow/operators/generic/builder_rc.rs`).

  The logic of an operator is any program that calls the handles.  Whenever the operator
  is scheduled, what its logic does is a run of acts, and what the operator reports is
  what these acts come to: the batches behind the handles follow the run call by
  call, and are empty before the logic is invoked and after the operator has reported.
  The connections are those of `new_input` and `new_output`: at each output
  there may come what has come at an input, at the same time.
-/
import Timely.GenericSessions

set_option linter.unusedSectionVars false

namespace Timely

open Library

variable {σ S T D : Type} [PartialOrder T] [DecidableLE T] [DecidableEq T] [Ord T] [LinearExtension T]
  [Timestamp T] [PathSummary S T]

/-! ### Sums of batches -/

/-- The sums with one batch replaced. -/
theorem sums_set {batches : List (ChangeBatch T)} {index : ℕ} {batch : ChangeBatch T}
    (h : batches[index]? = some batch) (changed : ChangeBatch T) (added : T → ℤ)
    (hchanged : ∀ time, changed.value time = batch.value time + added time) :
    sums (batches.set index changed) =
      sums batches + fun port time => if port = index then added time else 0 := by
  funext port time
  unfold sums Subgraph.waiting
  rw [Pi.add_apply, Pi.add_apply]
  by_cases hport : port = index
  · subst hport
    rw [List.getElem?_set_self (List.getElem?_eq_some_iff.mp h).1, h, if_pos rfl]
    exact hchanged time
  · rw [List.getElem?_set_ne (Ne.symm hport), if_neg hport, add_zero]

theorem sums_of_getElem? {batches : List (ChangeBatch T)} {index : ℕ} {batch : ChangeBatch T}
    (h : batches[index]? = some batch) (time : T) : sums batches index time = batch.value time := by
  unfold sums Subgraph.waiting
  rw [h]
  rfl

theorem sums_of_length_le {batches : List (ChangeBatch T)} {index : ℕ} (h : batches.length ≤ index) (time : T) :
    sums batches index time = 0 := by
  unfold sums Subgraph.waiting
  rw [List.getElem?_eq_none h]
  exact ChangeBatch.value_new time

/-- Acts that concern capabilities only consume and produce nothing. -/
theorem sum_of_inner {acts : List (OperatorAct T)} (h : ∀ act ∈ acts, act.Inner) :
    (acts.map OperatorAct.consumed).sum = 0 ∧ (acts.map OperatorAct.produced).sum = 0 := by
  induction acts with
  | nil => exact ⟨rfl, rfl⟩
  | cons act acts ih =>
    obtain ⟨hconsumed, hproduced⟩ := ih fun other hother => h other (List.mem_cons_of_mem _ hother)
    have hact := h act List.mem_cons_self
    rw [List.map_cons, List.sum_cons, List.map_cons, List.sum_cons, hconsumed, hproduced, hact.consumed,
      hact.produced]
    exact ⟨rfl, rfl⟩

/-- The acts of sending some messages at an output. -/
def sending (output : ℕ) (sent : List (T × ℕ)) : List (OperatorAct T) :=
  sent.map fun message => .send output message.1 message.2

theorem produced_sending (output : ℕ) (sent : List (T × ℕ)) :
    ((sending output sent).map OperatorAct.produced).sum =
      fun port time => if port = output then tally (counts_of sent) time else 0 := by
  induction sent with
  | nil =>
    funext port time
    exact (ite_self 0).symm
  | cons message sent ih =>
    unfold sending at *
    rw [List.map_cons, List.map_cons, List.sum_cons, ih]
    funext port time
    unfold counts_of
    rw [Pi.add_apply, Pi.add_apply, List.map_cons, tally_cons]
    change at_port output message.1 (message.2 : ℤ) port time + _ = _
    unfold at_port
    by_cases hport : port = output
    · simp [hport, eq_comm]
    · simp [hport]

theorem consumed_sending (output : ℕ) (sent : List (T × ℕ)) :
    ((sending output sent).map OperatorAct.consumed).sum = 0 := by
  refine List.sum_eq_zero fun consumed hconsumed => ?_
  obtain ⟨act, hact, rfl⟩ := List.mem_map.mp hconsumed
  obtain ⟨message, -, rfl⟩ := List.mem_map.mp hact
  rfl

/-- Messages are sent in sessions that have been opened. -/
theorem run_sending {summary : List (List (Antichain S))} {holdings : Holdings T} {output : ℕ}
    {sent : List (T × ℕ)} (h : ∀ message ∈ sent, holdings.opened output message.1) :
    Run (OperatorAct.Done summary) holdings (sending output sent) holdings := by
  induction sent with
  | nil => exact Run.nil
  | cons message sent ih =>
    have hfirst : Run (OperatorAct.Done summary) holdings [.send output message.1 message.2] holdings :=
      Run.nil.snoc (OperatorAct.Done.send (h message List.mem_cons_self))
    exact hfirst.append (ih fun other hother => h other (List.mem_cons_of_mem _ hother))

/-- A counter takes nothing, or counts what it takes. -/
theorem PullCounter.next_cases (counter : PullCounter T D) :
    (counter.next.1 = none ∧ counter.next.2.consumed = counter.consumed) ∨
      ∃ message, counter.next.1 = some message ∧ 0 < message.data.length ∧
        counter.next.2.consumed = counter.consumed.update message.time message.data.length := by
  obtain ⟨pullable, consumed⟩ := counter
  cases pullable with
  | nil => exact Or.inl ⟨rfl, rfl⟩
  | cons message rest =>
    unfold next
    by_cases hlength : 0 < message.data.length
    · exact Or.inr ⟨message, by simp [hlength], hlength, by simp [hlength]⟩
    · exact Or.inl ⟨by simp [hlength], by simp [hlength]⟩

/-! ### The run of a logic -/

namespace Handles

/-- The counts of records consumed and produced, at all ports. -/
def consumed (handles : Handles T D) : ℕ → T → ℤ := sums (handles.inputs.map PullCounter.consumed)

def produced (handles : Handles T D) : ℕ → T → ℤ := sums (handles.outputs.map OutputWrapper.produced)

/-- One operator, with numbered outputs, and capabilities for these. -/
structure Wired (handles : Handles T D) : Prop where
  core : ∃ core, handles.holder.operators = [core] ∧ core.internal = outputs_of 0 handles.outputs.length
  live : ∀ capability ∈ handles.holder.live, handles.holder.Refers capability.internal
  wrappers : ∀ (output : ℕ) (wrapper : OutputWrapper T D), handles.outputs[output]? = some wrapper →
    wrapper.internal_buffer = ⟨0, output⟩
  inactive : ∀ (output : ℕ) (wrapper : OutputWrapper T D), handles.outputs[output]? = some wrapper →
    output ∉ handles.active → wrapper.push_buffer.buffer = []

/-- The capabilities of an operator are its own, for its outputs. -/
theorem Wired.internal {handles : Handles T D} (h : handles.Wired) {capability : Capability T}
    (hlive : capability ∈ handles.holder.live) :
    capability.internal.operator = 0 ∧ capability.internal.output < handles.outputs.length := by
  obtain ⟨core, hcore, hinternal⟩ := h.core
  obtain ⟨found, hfound, hmem⟩ := h.live capability hlive
  rw [hcore] at hfound
  obtain rfl := List.mem_singleton.mp hfound
  rw [hinternal] at hmem
  exact mem_outputs_of.mp hmem

/-- Nothing is held at outputs that there are not. -/
theorem Wired.held_in_eq_zero {handles : Handles T D} (h : handles.Wired) {output : ℕ}
    (hlength : handles.outputs.length ≤ output) (time : T) :
    held_in handles.holder.live output time = 0 := by
  unfold held_in
  rw [Int.natCast_eq_zero, List.count_eq_zero]
  intro hmem
  have hinternal := h.internal hmem
  exact absurd hinternal.2 (not_lt.mpr hlength)

/-- The handles follow a run of acts: they have counted what the acts come to, and have the capabilities,
    the references and the sessions that these leave. -/
structure Follow (summary : List (List (Antichain S))) (held : ℕ → T → ℤ) (handles : Handles T D)
    (acts : List (OperatorAct T)) (holdings : Holdings T) : Prop where
  wired : handles.Wired
  run : Run (OperatorAct.Done summary) (Holdings.fresh held) acts holdings
  held_eq : holdings.held = held_in handles.holder.live
  seen : ∀ reference ∈ handles.references,
    reference.1 < handles.inputs.length ∧ holdings.seen reference.1 reference.2
  waits : ∀ (output : ℕ) (wrapper : OutputWrapper T D), handles.outputs[output]? = some wrapper →
    wrapper.push_buffer.Waits (holdings.opened output)
  consumed : handles.consumed = (acts.map OperatorAct.consumed).sum
  internal : ∀ output < handles.outputs.length, ∀ time,
    (handles.holder.cells ⟨0, output⟩).value time = held_in handles.holder.live output time - held output time
  produced : handles.produced = (acts.map OperatorAct.produced).sum

namespace Follow

variable {summary : List (List (Antichain S))} {held : ℕ → T → ℤ} {handles : Handles T D}
  {acts : List (OperatorAct T)} {holdings : Holdings T}

/-- A message is taken from an input, or none. -/
theorem next (h : Follow summary held handles acts holdings) {input : ℕ} {counter : PullCounter T D}
    (hcounter : handles.inputs[input]? = some counter) :
    ∃ more last, Follow summary held
      { handles with
        inputs := handles.inputs.set input counter.next.2
        references := handles.references ++
          (counter.next.1.map fun message => (input, message.time)).toList } (acts ++ more) last := by
  have hlength : input < handles.inputs.length := (List.getElem?_eq_some_iff.mp hcounter).1
  have hbatch : (handles.inputs.map PullCounter.consumed)[input]? = some counter.consumed := by
    rw [List.getElem?_map, hcounter]
    rfl
  have hwired : ({ handles with
      inputs := handles.inputs.set input counter.next.2
      references := handles.references ++
        (counter.next.1.map fun message => (input, message.time)).toList } : Handles T D).Wired :=
    ⟨h.wired.core, h.wired.live, h.wired.wrappers, h.wired.inactive⟩
  rcases counter.next_cases with ⟨hnone, hsame⟩ | ⟨message, hsome, hdata, hcounted⟩
  · refine ⟨[], holdings, hwired, ?_, h.held_eq, fun reference hreference => ?_, h.waits, ?_, h.internal, ?_⟩
    · rw [List.append_nil]
      exact h.run
    · rw [hnone] at hreference
      rw [List.length_set]
      exact h.seen reference (by simpa using hreference)
    · have hsums := sums_set hbatch counter.next.2.consumed (fun _ => 0)
        fun time => by rw [hsame, add_zero]
      unfold Handles.consumed
      rw [List.map_set, hsums, List.append_nil, ← h.consumed]
      funext port time
      exact (congrArg _ (ite_self 0)).trans (add_zero _)
    · rw [List.append_nil]
      exact h.produced
  · refine ⟨[.consume input message.time message.data.length], _, hwired,
      h.run.snoc (OperatorAct.Done.consume hdata), h.held_eq, fun reference hreference => ?_, h.waits, ?_,
      h.internal, ?_⟩
    · rw [hsome, Option.map_some, Option.toList_some] at hreference
      rw [List.length_set]
      rcases List.mem_append.mp hreference with hold | hnew
      · exact ⟨(h.seen reference hold).1, Or.inr (h.seen reference hold).2⟩
      · rw [List.mem_singleton.mp hnew]
        exact ⟨hlength, Or.inl ⟨rfl, rfl⟩⟩
    · have hsums := sums_set hbatch counter.next.2.consumed
        (fun time => if time = message.time then (message.data.length : ℤ) else 0) fun time => by
          rw [hcounted, ChangeBatch.value_update]
          simp only [eq_comm]
      unfold Handles.consumed
      rw [List.map_set, hsums, List.map_append, List.sum_append, ← h.consumed, List.map_singleton,
        List.sum_singleton]
      refine congrArg (handles.consumed + ·) (funext fun port => funext fun time => ?_)
      change _ = at_port input message.time (message.data.length : ℤ) port time
      unfold at_port
      exact (ite_and _ _ _ _).symm
    · rw [List.map_append, List.sum_append, ← h.produced]
      exact (add_zero _).symm

/-- Whatever is called on capabilities. -/
theorem capability (h : Follow summary held handles acts holdings)
    (hpromised : ∀ input < handles.inputs.length, ∀ output < handles.outputs.length, ∀ time,
      Promised summary input time output time) {call : CapabilityCall T}
    (hreference : call.reference.all handles.refers_to = true) {holder : Holder T}
    (hperform : handles.holder.perform call = some holder) :
    ∃ more last, Follow summary held { handles with holder := holder } (acts ++ more) last := by
  obtain ⟨core, hcore, hinternal⟩ := h.wired.core
  obtain ⟨hoperators, haccounted⟩ := Holder.perform_accounted h.wired.live hperform
  have hreferred : ∀ time, call.reference = some time →
      Referred summary holdings.seen handles.outputs.length ⟨time, core.internal⟩ := by
    intro time htime
    rw [htime, Option.all_some] at hreference
    obtain ⟨reference, hmem, hsame⟩ := List.any_eq_true.mp hreference
    obtain ⟨hinput, hseen⟩ := h.seen reference hmem
    rw [of_decide_eq_true hsame] at hseen
    exact ⟨hinternal, reference.1, hseen, fun output houtput => hpromised _ hinput output houtput time⟩
  have hmoves := Holder.moves_perform hcore hreferred hperform
  obtain ⟨-, hmoved⟩ := hmoves fun capability hlive => (h.wired.internal hlive).1
  obtain ⟨more, hmore, hinner⟩ := hmoved holdings h.held_eq rfl
  obtain ⟨hconsumed, hproduced⟩ := sum_of_inner hinner
  have hrefers : holder.Refers = handles.holder.Refers := by
    unfold Holder.Refers
    rw [hoperators]
  refine ⟨more, _, ⟨⟨core, hoperators.trans hcore, hinternal⟩, fun capability hlive => ?_, h.wired.wrappers,
    h.wired.inactive⟩, h.run.append hmore, rfl, h.seen, h.waits, ?_, fun output houtput time => ?_, ?_⟩
  · rw [hrefers]
    exact haccounted.within h.wired.live capability hlive
  · rw [List.map_append, List.sum_append, hconsumed, add_zero]
    exact h.consumed
  · have hbalance := haccounted.balance ⟨time, ⟨0, output⟩⟩
    have hbefore := h.internal output houtput time
    unfold held_in at *
    dsimp only at hbalance ⊢
    linarith
  · rw [List.map_append, List.sum_append, hproduced, add_zero]
    exact h.produced

/-- One output buffer sends some messages in sessions that have been opened. -/
theorem with_sent (h : Follow summary held handles acts holdings) {output : ℕ} {wrapper : OutputWrapper T D}
    (hwrapper : handles.outputs[output]? = some wrapper) {buffer : Buffer T D} {sent : List (T × ℕ)}
    (hsent : Sends (holdings.opened output) wrapper.push_buffer buffer sent)
    (hinactive : output ∉ handles.active → buffer.buffer = []) :
    Follow summary held (handles.with_buffer output wrapper buffer) (acts ++ sending output sent)
      holdings := by
  have hlength : output < handles.outputs.length := (List.getElem?_eq_some_iff.mp hwrapper).1
  have hkept : (handles.with_buffer output wrapper buffer).outputs.length = handles.outputs.length :=
    List.length_set
  -- at other outputs nothing changes
  have hcases : ∀ {other : ℕ} {found : OutputWrapper T D},
      (handles.with_buffer output wrapper buffer).outputs[other]? = some found →
        (output = other ∧ { wrapper with push_buffer := buffer } = found) ∨
          (output ≠ other ∧ handles.outputs[other]? = some found) :=
    fun hfound => Builder.getElem?_set_cases hfound
  refine ⟨⟨?_, h.wired.live, fun other found hfound => ?_, fun other found hfound hother => ?_⟩,
    h.run.append (run_sending hsent.allowed), h.held_eq, h.seen, fun other found hfound => ?_, ?_, ?_, ?_⟩
  · obtain ⟨core, hcore, hinternal⟩ := h.wired.core
    exact ⟨core, hcore, hinternal.trans (congrArg (outputs_of 0) hkept.symm)⟩
  · rcases hcases hfound with ⟨rfl, rfl⟩ | ⟨-, hold⟩
    · exact h.wired.wrappers output wrapper hwrapper
    · exact h.wired.wrappers other found hold
  · rcases hcases hfound with ⟨rfl, rfl⟩ | ⟨-, hold⟩
    · exact hinactive hother
    · exact h.wired.inactive other found hold hother
  · rcases hcases hfound with ⟨rfl, rfl⟩ | ⟨-, hold⟩
    · exact hsent.waits
    · exact h.waits other found hold
  · rw [List.map_append, List.sum_append, consumed_sending, add_zero]
    exact h.consumed
  · rw [hkept]
    exact h.internal
  · have hbatch : (handles.outputs.map OutputWrapper.produced)[output]? = some wrapper.produced := by
      rw [List.getElem?_map, hwrapper]
      rfl
    have hsums := sums_set hbatch buffer.pusher.produced (tally (counts_of sent)) hsent.counted
    rw [List.map_append, List.sum_append, produced_sending, ← h.produced]
    unfold Handles.produced with_buffer
    rw [List.map_set]
    exact hsums

/-- A handle to an output is dropped, and its buffer ceases. -/
theorem drop_output (h : Follow summary held handles acts holdings) {output : ℕ} {dropped : Handles T D}
    (hdrop : handles.drop_output output = some dropped) :
    (∃ more, Follow summary held dropped (acts ++ more) holdings) ∧ dropped.active = handles.active ∧
      ∀ (other : ℕ) (wrapper : OutputWrapper T D), dropped.outputs[other]? = some wrapper →
        wrapper.push_buffer.buffer = [] ∨ (other ≠ output ∧ handles.outputs[other]? = some wrapper) := by
  obtain ⟨wrapper, hwrapper, rfl⟩ := Option.map_eq_some_iff.mp hdrop
  obtain ⟨hempty, sent, hsent⟩ := Buffer.exists_sent_cease (h.waits output wrapper hwrapper)
  refine ⟨⟨_, h.with_sent hwrapper hsent fun _ => hempty⟩, rfl, fun other found hfound => ?_⟩
  rcases Builder.getElem?_set_cases hfound with ⟨rfl, rfl⟩ | ⟨hne, hold⟩
  · exact Or.inl hempty
  · exact Or.inr ⟨hne.symm, hold⟩

/-- A session is opened at a time that a capability or a reference allows. -/
theorem open_session (h : Follow summary held handles acts holdings)
    (hpromised : ∀ input < handles.inputs.length, ∀ output < handles.outputs.length, ∀ time,
      Promised summary input time output time) {output : ℕ} {wrapper : OutputWrapper T D}
    (hwrapper : handles.outputs[output]? = some wrapper) {cap : Grip T} {time : T}
    (htime : handles.session_time wrapper.internal_buffer cap = some time) :
    ∃ more opened, Follow summary held handles (acts ++ more) { holdings with opened := opened } ∧
      opened output time := by
  have hlength : output < handles.outputs.length := (List.getElem?_eq_some_iff.mp hwrapper).1
  have hinternal := h.wired.wrappers output wrapper hwrapper
  -- opening a session only adds to what has been opened
  have hopen : ∀ act : OperatorAct T, act.consumed = 0 → act.produced = 0 →
      act.Done summary holdings
        { holdings with
          opened := fun other later => (other = output ∧ later = time) ∨ holdings.opened other later } →
      ∃ more opened, Follow summary held handles (acts ++ more) { holdings with opened := opened } ∧
        opened output time := by
    intro act hconsumed hproduced hact
    refine ⟨[act], _, ⟨h.wired, h.run.snoc hact, h.held_eq, h.seen,
      fun other found hfound later hlater hne => Or.inr (h.waits other found hfound later hlater hne), ?_,
      h.internal, ?_⟩, Or.inl ⟨rfl, rfl⟩⟩
    · rw [List.map_append, List.sum_append, List.map_singleton, List.sum_singleton, hconsumed, add_zero]
      exact h.consumed
    · rw [List.map_append, List.sum_append, List.map_singleton, List.sum_singleton, hproduced, add_zero]
      exact h.produced
  cases cap with
  | owned place =>
    obtain ⟨capability, hborrow, hvalid⟩ := Option.bind_eq_some_iff.mp htime
    split at hvalid
    case isFalse => cases hvalid
    case isTrue hsame =>
      cases hvalid
      have hcapability := of_decide_eq_true hsame
      rw [hinternal] at hcapability
      refine hopen (.present output capability.time) rfl rfl (OperatorAct.Done.present ?_)
      have hpos := held_in_pos (Holder.mem_live_of_borrow hborrow) (by rw [hcapability])
      rw [hcapability] at hpos
      rw [h.held_eq]
      exact hpos
  | reference early =>
    obtain ⟨core, -, hvalid⟩ := Option.bind_eq_some_iff.mp htime
    split at hvalid
    case isFalse => cases hvalid
    case isTrue hsame =>
      cases hvalid
      obtain ⟨reference, hmem, hreference⟩ := List.any_eq_true.mp (Bool.and_eq_true_iff.mp hsame).1
      obtain ⟨hinput, hseen⟩ := h.seen reference hmem
      rw [of_decide_eq_true hreference] at hseen
      exact hopen (.answer reference.1 time output time) rfl rfl
        (OperatorAct.Done.answer hseen (hpromised _ hinput output hlength time))

/-- Whatever the logic calls next. -/
theorem perform (h : Follow summary held handles acts holdings)
    (hpromised : ∀ input < handles.inputs.length, ∀ output < handles.outputs.length, ∀ time,
      Promised summary input time output time) {call : LogicCall T D} {reply : Option (Message T D)}
    {after : Handles T D} (hperform : handles.perform call = some (reply, after)) :
    after.inputs.length = handles.inputs.length ∧ after.outputs.length = handles.outputs.length ∧
      ∃ more last, Follow summary held after (acts ++ more) last := by
  cases call with
  | next input =>
    obtain ⟨counter, hcounter, heq⟩ := Option.map_eq_some_iff.mp hperform
    obtain ⟨-, rfl⟩ := Prod.mk.inj heq
    exact ⟨List.length_set, rfl, h.next hcounter⟩
  | capability call =>
    simp only [Handles.perform] at hperform
    split at hperform
    case isFalse => cases hperform
    case isTrue hreference =>
      obtain ⟨holder, hcall, heq⟩ := Option.map_eq_some_iff.mp hperform
      obtain ⟨-, rfl⟩ := Prod.mk.inj heq
      exact ⟨rfl, rfl, h.capability hpromised hreference hcall⟩
  | activate output =>
    simp only [Handles.perform] at hperform
    split at hperform
    case isFalse => cases hperform
    case isTrue =>
      cases hperform
      refine ⟨rfl, rfl, [], holdings, ⟨h.wired.core, h.wired.live, h.wired.wrappers, ?_⟩, ?_, h.held_eq,
        h.seen, h.waits, ?_, h.internal, ?_⟩
      · exact fun other wrapper hwrapper hother =>
          h.wired.inactive other wrapper hwrapper fun hactive => hother (List.mem_cons_of_mem _ hactive)
      · rw [List.append_nil]
        exact h.run
      · rw [List.append_nil]
        exact h.consumed
      · rw [List.append_nil]
        exact h.produced
  | session output cap provisions =>
    simp only [Handles.perform] at hperform
    split at hperform
    case isFalse => cases hperform
    case isTrue hactive =>
      obtain ⟨wrapper, hwrapper, hsession⟩ := Option.bind_eq_some_iff.mp hperform
      obtain ⟨time, htime, heq⟩ := Option.map_eq_some_iff.mp hsession
      obtain ⟨-, rfl⟩ := Prod.mk.inj heq
      obtain ⟨more, opened, hopened, htime⟩ := h.open_session hpromised hwrapper htime
      obtain ⟨sent, hsent⟩ := Session.exists_sent_provide_all htime
        (hopened.waits output wrapper hwrapper) provisions
      have hsends := hopened.with_sent hwrapper hsent fun hinactive => absurd hactive hinactive
      rw [List.append_assoc] at hsends
      exact ⟨rfl, List.length_set, _, _, hsends⟩
  | release output =>
    simp only [Handles.perform] at hperform
    split at hperform
    case isFalse => cases hperform
    case isTrue =>
      obtain ⟨dropped, hdrop, heq⟩ := Option.map_eq_some_iff.mp hperform
      obtain ⟨-, rfl⟩ := Prod.mk.inj heq
      obtain ⟨⟨more, hdropped⟩, hactive, hempty⟩ := h.drop_output hdrop
      obtain ⟨wrapper, hwrapper, rfl⟩ := Option.map_eq_some_iff.mp hdrop
      refine ⟨rfl, List.length_set, more, holdings, ⟨hdropped.wired.core, hdropped.wired.live,
        hdropped.wired.wrappers, fun other found hfound hother => ?_⟩, hdropped.run, hdropped.held_eq,
        hdropped.seen, hdropped.waits, hdropped.consumed, hdropped.internal, hdropped.produced⟩
      rcases hempty other found hfound with hnone | ⟨hne, hold⟩
      · exact hnone
      · refine h.wired.inactive other found hold fun hmem => hother ?_
        exact (List.mem_erase_of_ne hne).mpr hmem

/-- When the logic returns, nothing waits in any buffer. -/
theorem drop_outputs (h : Follow summary held handles acts holdings) {dropped : Handles T D}
    (hdrop : handles.drop_outputs = some dropped) :
    dropped.inputs = handles.inputs ∧ dropped.outputs.length = handles.outputs.length ∧
      dropped.active = [] ∧ ∃ more, Follow summary held dropped (acts ++ more) holdings := by
  obtain ⟨last, hfold, rfl⟩ := Option.map_eq_some_iff.mp hdrop
  have hall : last.inputs = handles.inputs ∧ last.outputs.length = handles.outputs.length ∧
      last.active = handles.active ∧ (∃ more, Follow summary held last (acts ++ more) holdings) ∧
      ∀ output ∈ handles.active, ∀ wrapper : OutputWrapper T D, last.outputs[output]? = some wrapper →
        wrapper.push_buffer.buffer = [] := by
    refine (Run.of_foldlM hfold).invariant (P := fun done middle =>
      middle.inputs = handles.inputs ∧ middle.outputs.length = handles.outputs.length ∧
      middle.active = handles.active ∧ (∃ more, Follow summary held middle (acts ++ more) holdings) ∧
      ∀ output ∈ done, ∀ wrapper : OutputWrapper T D, middle.outputs[output]? = some wrapper →
        wrapper.push_buffer.buffer = []) ?_ ?_
    · refine ⟨rfl, rfl, rfl, ⟨[], ?_⟩, fun _ hmem => absurd hmem List.not_mem_nil⟩
      rw [List.append_nil]
      exact h
    · rintro done middle output next ⟨hinputs, houtputs, hactive, ⟨more, hmiddle⟩, hdone⟩ hstep
      obtain ⟨⟨others, hnext⟩, hsame, hempty⟩ := hmiddle.drop_output hstep
      obtain ⟨wrapper, -, rfl⟩ := Option.map_eq_some_iff.mp hstep
      rw [List.append_assoc] at hnext
      refine ⟨hinputs, List.length_set.trans houtputs, hsame.trans hactive, ⟨_, hnext⟩,
        fun other hother found hfound => ?_⟩
      rcases hempty other found hfound with hnone | ⟨hne, hold⟩
      · exact hnone
      · rcases List.mem_append.mp hother with hbefore | hlast
        · exact hdone other hbefore found hold
        · exact absurd (List.mem_singleton.mp hlast) hne
  obtain ⟨hinputs, houtputs, hactive, ⟨more, hlast⟩, hempty⟩ := hall
  refine ⟨hinputs, houtputs, rfl, more, ⟨hlast.wired.core, hlast.wired.live, hlast.wired.wrappers,
    fun output wrapper hwrapper _ => ?_⟩, hlast.run, hlast.held_eq, hlast.seen, hlast.waits, hlast.consumed,
    hlast.internal, hlast.produced⟩
  by_cases hmem : output ∈ handles.active
  · exact hempty output hmem wrapper hwrapper
  · refine hlast.wired.inactive output wrapper hwrapper ?_
    rw [hactive]
    exact hmem

end Follow

end Handles

/-! ### Reports -/

namespace GenericOperator

/-- Moving the first batches of counts. -/
theorem foldlM_move_counts {counts changes : List (ChangeBatch T)} {ports : ℕ}
    {after : List (ChangeBatch T) × List (ChangeBatch T)}
    (h : (List.range ports).foldlM move_counts (counts, changes) = some after) :
    after.1.length = counts.length ∧ after.2.length = changes.length ∧ ∀ port time,
      sums after.1 port time = (if port < ports then 0 else sums counts port time) ∧
      sums after.2 port time =
        sums changes port time + if port < ports then sums counts port time else 0 := by
  induction ports generalizing after with
  | zero =>
    cases h
    exact ⟨rfl, rfl, fun port time => ⟨by simp, by simp⟩⟩
  | succ ports ih =>
    rw [List.range_succ] at h
    obtain ⟨middle, hmiddle, hmove⟩ := foldlM_concat_cases h
    obtain ⟨hcounts, hchanges, hsums⟩ := ih hmiddle
    obtain ⟨count, hcount, hmove⟩ := Option.bind_eq_some_iff.mp hmove
    obtain ⟨change, hchange, rfl⟩ := Option.map_eq_some_iff.mp hmove
    refine ⟨List.length_set.trans hcounts, List.length_set.trans hchanges, fun port time => ?_⟩
    have hmoved := ChangeBatch.value_drain_into count change
    have hleft := sums_set hcount (count.drain_into change).1 (fun time => -count.value time)
      fun time => by rw [(hmoved time).2, add_neg_cancel]
    have hright := sums_set hchange (count.drain_into change).2 (fun time => count.value time)
      fun time => by rw [(hmoved time).1, add_comm]
    obtain ⟨hbefore, hafter⟩ := hsums port time
    rw [hleft, hright]
    simp only [Pi.add_apply, hbefore, hafter]
    by_cases hport : port = ports
    · subst hport
      -- the batch of this port has not been moved before
      have hvalue := (hsums port time).1
      rw [if_neg (lt_irrefl port), sums_of_getElem? hcount] at hvalue
      simp [hvalue]
    · have hlt : port < ports + 1 ↔ port < ports := by omega
      simp [hport, hlt]

/-- Moving all batches of counts adds them, and leaves none. -/
theorem move_all_cases {counts changes : List (ChangeBatch T)}
    {after : List (ChangeBatch T) × List (ChangeBatch T)} (hlength : changes.length = counts.length)
    (h : move_all counts changes = some after) :
    after.1.length = counts.length ∧ after.2.length = changes.length ∧ sums after.1 = 0 ∧
      sums after.2 = sums changes + sums counts := by
  obtain ⟨hcounts, hchanges, hsums⟩ := foldlM_move_counts h
  refine ⟨hcounts, hchanges, funext fun port => funext fun time => ?_,
    funext fun port => funext fun time => ?_⟩
  · rw [(hsums port time).1]
    split
    case isTrue => rfl
    case isFalse hport =>
      rw [hlength] at hport
      exact sums_of_length_le (not_lt.mp hport) time
  · rw [(hsums port time).2, Pi.add_apply, Pi.add_apply]
    split
    case isTrue => rfl
    case isFalse hport =>
      rw [hlength] at hport
      rw [sums_of_length_le (not_lt.mp hport)]

theorem map_zipWith_with_consumed {inputs : List (PullCounter T D)} {counts : List (ChangeBatch T)}
    (h : counts.length = inputs.length) :
    (List.zipWith PullCounter.with_consumed inputs counts).map PullCounter.consumed = counts := by
  induction inputs generalizing counts with
  | nil => exact (List.eq_nil_of_length_eq_zero h).symm
  | cons input inputs ih =>
    cases counts with
    | nil => cases h
    | cons count counts => exact congrArg (count :: ·) (ih (Nat.succ.inj h))

theorem map_zipWith_with_produced {outputs : List (OutputWrapper T D)} {counts : List (ChangeBatch T)}
    (h : counts.length = outputs.length) :
    (List.zipWith OutputWrapper.with_produced outputs counts).map OutputWrapper.produced = counts := by
  induction outputs generalizing counts with
  | nil => exact (List.eq_nil_of_length_eq_zero h).symm
  | cons output outputs ih =>
    cases counts with
    | nil => cases h
    | cons count counts => exact congrArg (count :: ·) (ih (Nat.succ.inj h))

/-- An operator between two calls: nothing is counted that has not been reported, and what its summary
    promises is that at each output there may come what comes at an input. -/
structure Keeps (operator : GenericOperator σ T D) (summary : List (List (Antichain S))) : Prop where
  wired : operator.handles.Wired
  references : operator.handles.references = []
  active : operator.handles.active = []
  consumed : operator.handles.consumed = 0
  internal : ∀ output < operator.handles.outputs.length, ∀ time,
    (operator.handles.holder.cells ⟨0, output⟩).value time = 0
  produced : operator.handles.produced = 0
  promised : ∀ input < operator.handles.inputs.length, ∀ output < operator.handles.outputs.length, ∀ time,
    Promised summary input time output time

/-- Arriving messages are not counted yet. -/
theorem arrive_cases (operator : GenericOperator σ T D) :
    ∃ inputs, operator.arrive.handles = { operator.handles with inputs := inputs } ∧
      inputs.map PullCounter.consumed = operator.handles.inputs.map PullCounter.consumed := by
  unfold arrive
  cases operator.arrivals with
  | nil => exact ⟨_, rfl, rfl⟩
  | cons arrived arrivals =>
    refine ⟨_, rfl, ?_⟩
    apply List.ext_getElem?
    intro index
    simp only [List.getElem?_map, List.getElem?_mapIdx, Option.map_map]
    rfl

/-- What is reported is what has been counted, and nothing is left then. -/
structure Reports (handles : Handles T D) (progress : SharedProgress T) (left : Handles T D)
    (reported : SharedProgress T) : Prop where
  wired : left.Wired
  shape : left.inputs.length = handles.inputs.length ∧ left.outputs.length = handles.outputs.length
  live : left.holder.live = handles.holder.live
  idle : left.references = [] ∧ left.active = handles.active
  empty : left.consumed = 0 ∧ left.produced = 0 ∧ ∀ output < left.outputs.length, ∀ time,
    (left.holder.cells ⟨0, output⟩).value time = 0
  shaped : reported.Shaped handles.inputs.length handles.outputs.length
  consumeds : sums reported.consumeds = sums progress.consumeds + handles.consumed
  internals : ∀ output time, sums reported.internals output time = sums progress.internals output time +
    if output < handles.outputs.length then (handles.holder.cells ⟨0, output⟩).value time else 0
  produceds : sums reported.produceds = sums progress.produceds + handles.produced

theorem reports_of_report {handles left : Handles T D} (progress : SharedProgress T)
    {reported : SharedProgress T} (hwired : handles.Wired)
    (hshaped : progress.Shaped handles.inputs.length handles.outputs.length)
    (h : report handles progress = some (left, reported)) : Reports handles progress left reported := by
  obtain ⟨consumed, hconsumed, h⟩ := Option.bind_eq_some_iff.mp h
  obtain ⟨core, hcore, h⟩ := Option.bind_eq_some_iff.mp h
  obtain ⟨⟨moved, cells⟩, hmoved, h⟩ := Option.bind_eq_some_iff.mp h
  obtain ⟨produced, hproduced, h⟩ := Option.bind_eq_some_iff.mp h
  cases h
  obtain ⟨found, hoperators, hinternal⟩ := hwired.core
  rw [hoperators] at hcore
  cases hcore
  obtain ⟨hinputs, hconsumeds, hnone, hconsumed⟩ := move_all_cases
    (by rw [List.length_map]; exact hshaped.consumeds) hconsumed
  obtain ⟨houtputs, hproduceds, hnothing, hproduced⟩ := move_all_cases
    (by rw [List.length_map]; exact hshaped.produceds) hproduced
  rw [List.length_map] at hinputs houtputs
  have hmoving : ({ core with internals := progress.internals } : OperatorCore T).internal =
      outputs_of 0 handles.outputs.length := hinternal
  obtain ⟨-, hlength, hinternals, hcells⟩ := move_internals_eq hmoving hmoved
  have hkept : (List.zipWith OutputWrapper.with_produced handles.outputs produced.1).length =
      handles.outputs.length := by
    rw [List.length_zipWith, houtputs, min_self]
  -- each wrapper is another one with other counts
  have hwrappers : ∀ {output : ℕ} {wrapper : OutputWrapper T D},
      (List.zipWith OutputWrapper.with_produced handles.outputs produced.1)[output]? = some wrapper →
        ∃ before counts, handles.outputs[output]? = some before ∧
          wrapper = before.with_produced counts := by
    intro output wrapper hwrapper
    rw [List.getElem?_zipWith] at hwrapper
    split at hwrapper
    · rename_i before counts hbefore _
      cases hwrapper
      exact ⟨before, counts, hbefore, rfl⟩
    · cases hwrapper
  refine ⟨⟨⟨core, hoperators, hinternal.trans (congrArg (outputs_of 0) hkept.symm)⟩, hwired.live, ?_, ?_⟩,
    ⟨?_, hkept⟩, rfl, ⟨rfl, rfl⟩, ⟨?_, ?_, ?_⟩, ⟨?_, ?_, ?_⟩, hconsumed, ?_, hproduced⟩
  · intro output wrapper hwrapper
    obtain ⟨before, counts, hbefore, rfl⟩ := hwrappers hwrapper
    exact hwired.wrappers output before hbefore
  · intro output wrapper hwrapper hinactive
    obtain ⟨before, counts, hbefore, rfl⟩ := hwrappers hwrapper
    exact hwired.inactive output before hbefore hinactive
  · change (List.zipWith PullCounter.with_consumed handles.inputs consumed.1).length = _
    rw [List.length_zipWith, hinputs, min_self]
  · change sums ((List.zipWith PullCounter.with_consumed handles.inputs consumed.1).map
      PullCounter.consumed) = 0
    rw [map_zipWith_with_consumed hinputs, hnone]
  · change sums ((List.zipWith OutputWrapper.with_produced handles.outputs produced.1).map
      OutputWrapper.produced) = 0
    rw [map_zipWith_with_produced houtputs, hnothing]
  · intro output houtput time
    have hmember : (⟨0, output⟩ : Internal) ∈ outputs_of 0 handles.outputs.length := by
      rw [mem_outputs_of]
      exact ⟨rfl, by rw [← hkept]; exact houtput⟩
    change (cells ⟨0, output⟩).value time = 0
    rw [hcells, if_pos hmember, ChangeBatch.value_new]
  · exact hconsumeds.trans hshaped.consumeds
  · exact hlength.trans hshaped.internals
  · exact hproduceds.trans hshaped.produceds
  · intro output time
    change sums moved.internals output time = _
    by_cases houtput : output < handles.outputs.length
    · obtain ⟨changes, hchanges⟩ : ∃ changes, progress.internals[output]? = some changes := by
        refine ⟨_, List.getElem?_eq_getElem ?_⟩
        rw [hshaped.internals]
        exact houtput
      have hmovedChanges := hinternals output
      rw [if_pos houtput] at hmovedChanges
      change moved.internals[output]? = (progress.internals[output]?).map _ at hmovedChanges
      rw [hchanges, Option.map_some] at hmovedChanges
      rw [sums_of_getElem? hmovedChanges, sums_of_getElem? hchanges, if_pos houtput, ChangeBatch.value_extend]
      exact congrArg _ (ChangeBatch.tally_compact _ time)
    · rw [if_neg houtput, add_zero, sums_of_length_le, sums_of_length_le]
      · rw [hshaped.internals]
        exact not_lt.mp houtput
      · rw [hlength]
        change progress.internals.length ≤ output
        rw [hshaped.internals]
        exact not_lt.mp houtput

/-- The capabilities that an operator holds. -/
def held (operator : GenericOperator σ T D) : ℕ → T → ℤ := held_in operator.handles.holder.live

/-- Before the logic is invoked, nothing has been done. -/
theorem Keeps.follow {operator : GenericOperator σ T D} {summary : List (List (Antichain S))}
    (h : operator.Keeps summary) :
    Handles.Follow summary operator.held operator.arrive.handles [] (Holdings.fresh operator.held) := by
  obtain ⟨inputs, harrive, hconsumed⟩ := operator.arrive_cases
  rw [harrive]
  refine ⟨⟨h.wired.core, h.wired.live, h.wired.wrappers, h.wired.inactive⟩, Run.nil, rfl,
    fun reference hreference => ?_, fun output wrapper hwrapper => ?_, ?_, fun output houtput time => ?_,
    h.produced⟩
  · change reference ∈ operator.handles.references at hreference
    rw [h.references] at hreference
    exact absurd hreference List.not_mem_nil
  · refine Buffer.waits_of_empty (h.wired.inactive output wrapper hwrapper ?_)
    rw [h.active]
    exact List.not_mem_nil
  · change sums (inputs.map PullCounter.consumed) = 0
    rw [hconsumed]
    exact h.consumed
  · change (operator.handles.holder.cells ⟨0, output⟩).value time =
      operator.held output time - operator.held output time
    rw [h.internal output houtput time, sub_self]

/-- Whatever its logic does in a call, an operator that keeps its promises does a run of acts, from the
    capabilities that it holds to those that it holds then, and reports what these come to. -/
theorem acted_of_raw_logic {operator operator' : GenericOperator σ T D} {progress progress' : SharedProgress T}
    {summary : List (List (Antichain S))} {flag : Bool} (hkeeps : operator.Keeps summary)
    (hshaped : progress.Shaped operator.handles.inputs.length operator.handles.outputs.length)
    (h : operator.raw_logic progress = some (flag, operator', progress')) :
    operator'.Keeps summary ∧
      progress'.Shaped operator'.handles.inputs.length operator'.handles.outputs.length ∧
      ∃ acts, Acted summary operator.held acts operator'.held ∧
        Totals acts (sums progress'.consumeds - sums progress.consumeds)
          (sums progress'.internals - sums progress.internals)
          (sums progress'.produceds - sums progress.produceds) := by
  obtain ⟨drained, -, h⟩ := Option.bind_eq_some_iff.mp h
  obtain ⟨⟨result, returned⟩, hreturned, h⟩ := Option.bind_eq_some_iff.mp h
  obtain ⟨handles, hdropped, h⟩ := Option.bind_eq_some_iff.mp h
  obtain ⟨⟨left, reported⟩, hreported, heq⟩ := Option.map_eq_some_iff.mp h
  obtain ⟨-, heq⟩ := Prod.mk.inj heq
  obtain ⟨rfl, rfl⟩ := Prod.mk.inj heq
  obtain ⟨inputs, harrive, hconsumed⟩ := operator.arrive_cases
  have hlength : operator.arrive.handles.inputs.length = operator.handles.inputs.length := by
    rw [harrive]
    have hmapped := congrArg List.length hconsumed
    rwa [List.length_map, List.length_map] at hmapped
  have houtputs : operator.arrive.handles.outputs.length = operator.handles.outputs.length := by
    rw [harrive]
  -- the handles follow a run of acts, call by call
  obtain ⟨hinputsReturned, houtputsReturned, acts, holdings, hfollow⟩ :
      returned.inputs.length = operator.handles.inputs.length ∧
      returned.outputs.length = operator.handles.outputs.length ∧
      ∃ acts holdings, Handles.Follow summary operator.held returned acts holdings := by
    refine Interaction.invariant (P := fun handles : Handles T D =>
      handles.inputs.length = operator.handles.inputs.length ∧
      handles.outputs.length = operator.handles.outputs.length ∧
      ∃ acts holdings, Handles.Follow summary operator.held handles acts holdings) hreturned
      ⟨hlength, houtputs, [], _, hkeeps.follow⟩ ?_
    rintro before request reply after ⟨hinputs, houtputs, acts, holdings, hbefore⟩ hcall
    have hpromised : ∀ input < before.inputs.length, ∀ output < before.outputs.length, ∀ time,
        Promised summary input time output time := by
      rw [hinputs, houtputs]
      exact hkeeps.promised
    obtain ⟨hsame, hkept, more, last, hafter⟩ := hbefore.perform hpromised hcall
    exact ⟨hsame.trans hinputs, hkept.trans houtputs, _, last, hafter⟩
  obtain ⟨hinputsDropped, houtputsDropped, hactive, more, hlast⟩ := hfollow.drop_outputs hdropped
  have hports : handles.inputs.length = operator.handles.inputs.length := by
    rw [hinputsDropped, hinputsReturned]
  have hports' : handles.outputs.length = operator.handles.outputs.length :=
    houtputsDropped.trans houtputsReturned
  have hreports := reports_of_report { progress with frontiers := drained.2 } hlast.wired
    (by
      rw [hports, hports']
      exact ⟨hshaped.consumeds, hshaped.internals, hshaped.produceds⟩) hreported
  obtain ⟨hnone, hnothing, hcells⟩ := hreports.empty
  refine ⟨⟨hreports.wired, hreports.idle.1, hreports.idle.2.trans hactive, hnone, hcells, hnothing, ?_⟩, ?_,
    acts ++ more, ⟨holdings, hlast.run, hlast.held_eq.trans ?_⟩, ?_, ?_, ?_⟩
  · change ∀ input < left.inputs.length, ∀ output < left.outputs.length, ∀ time,
      Promised summary input time output time
    rw [hreports.shape.1, hreports.shape.2, hports, hports']
    exact hkeeps.promised
  · change reported.Shaped left.inputs.length left.outputs.length
    rw [hreports.shape.1, hreports.shape.2]
    exact hreports.shaped
  · change held_in handles.holder.live = held_in left.holder.live
    rw [hreports.live]
  · rw [hreports.consumeds, hlast.consumed]
    exact add_sub_cancel_left _ _
  · have hheld : holdings.held = operator.held + ((acts ++ more).map OperatorAct.internal).sum :=
      Acted.held_eq ⟨holdings, hlast.run, rfl⟩
    funext output time
    rw [Pi.sub_apply, Pi.sub_apply, hreports.internals]
    have hgained := congrFun (congrFun hheld output) time
    rw [Pi.add_apply, Pi.add_apply, hlast.held_eq] at hgained
    split
    case isTrue houtput =>
      rw [hlast.internal output houtput time]
      dsimp only
      linarith
    case isFalse houtput =>
      have hafter := hlast.wired.held_in_eq_zero (not_lt.mp houtput) time
      rw [hports'] at houtput
      have hbefore := hkeeps.wired.held_in_eq_zero (not_lt.mp houtput) time
      unfold held at hgained
      dsimp only
      linarith
  · rw [hreports.produceds, hlast.produced]
    exact add_sub_cancel_left _ _

/-- Operators of general shape keep to the interface, whatever their logic is. -/
def interface (σ S T D : Type) [PartialOrder T] [DecidableLE T] [DecidableEq T] [Ord T] [LinearExtension T]
    [Timestamp T] [PathSummary S T] : Interface (GenericOperator σ T D) S T where
  held operator := operator.held
  inputs operator := operator.handles.inputs.length
  outputs operator := operator.handles.outputs.length
  Keeps operator summary := operator.Keeps summary
  call := by
    intro operator operator' shared shared' summary hkeeps hshaped hcalls
    rcases hcalls with ⟨flag, hschedule⟩ | hset
    · exact acted_of_raw_logic hkeeps hshaped hschedule
    · obtain ⟨⟨flag, outcome⟩, hlogic, heq⟩ := Option.map_eq_some_iff.mp hset
      obtain ⟨rfl, rfl⟩ := Prod.mk.inj heq
      exact acted_of_raw_logic hkeeps hshaped hlogic

end GenericOperator

end Timely
