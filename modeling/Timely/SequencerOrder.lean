/-
  Timely/SequencerOrder.lean
  ==========================
  **When the sequencer gives one order.**

  As long as no two workers emit an element with one time and one counter, the
  elements released at every worker are an initial segment of one list: all
  emitted elements in the order of time and counter.
-/
import Timely.Sequencer

set_option linter.unusedSectionVars false

namespace Timely

open Library

namespace Sequencer

variable {Time T : Type} [LinearOrder Time] {peers : ℕ}

/-! ### The invariant -/

/-- What a worker has not released. -/
def State.held (state : State peers Time T) (index : Fin peers) : List (Message Time T) :=
  (state.workers index).recvd ++ state.unread index

/-- What holds between events: every emitted element is at each worker released or held, the
    released ones lie before all that is held or may still come, and the log is the preloaded
    queue followed by the released elements. -/
structure Ordered (preload : List T) (released : Fin peers → List (Message Time T))
    (state : State peers Time T) : Prop where
  conserved : ∀ index, (released index ++ state.held index).Perm
    (state.emitted.map (Emitted.message index))
  sorted : ∀ index, (released index).Pairwise fun first second => sortKey first ≤ sortKey second
  settled : ∀ index, ∀ message ∈ released index, ∀ other ∈ state.held index, message.time < other.time
  passed : ∀ index, ∀ message ∈ released index, ∀ other,
    ∀ capability ∈ (state.workers other).capability, message.time < capability
  safe : ∀ index, state.Safe index (state.workers index).frontier
  log_prefix : ∀ index, (state.workers index).returned ++ (state.workers index).recv <+:
    preload ++ (released index).map Message.element
  log : ∀ index, (state.workers index).present = true →
    (state.workers index).returned ++ (state.workers index).recv =
      preload ++ (released index).map Message.element
  own : state.emitted.Pairwise fun first second =>
    first.source = second.source → first.stamp < second.stamp
  own_time : ∀ record ∈ state.emitted, ∀ capability ∈ (state.workers record.source).capability,
    record.time ≤ capability
  own_counter : ∀ record ∈ state.emitted, record.counter < (state.workers record.source).counter
  sent : ∀ index, (state.emitted.filter fun record => decide (record.source = index)).map
    Emitted.element ++ (state.workers index).send = (state.workers index).pushed
  distinct : (state.emitted.map Emitted.stamp).Nodup

theorem ordered_preloaded (start : Time) (preload : List T) :
    Ordered preload (fun _ => []) (State.preloaded start preload : State peers Time T) where
  conserved _ := List.Perm.refl _
  sorted _ := List.Pairwise.nil
  settled _ _ hmessage := absurd hmessage List.not_mem_nil
  passed _ _ hmessage := absurd hmessage List.not_mem_nil
  safe index := by
    constructor
    · intro other capability hcapability
      exact le_of_eq (Option.mem_some_iff.mp hcapability)
    · intro message hmessage
      exact absurd hmessage List.not_mem_nil
  log_prefix _ := by
    rw [List.map_nil, List.append_nil]
    exact List.prefix_rfl
  log _ _ := (List.append_nil _).symm
  own := List.Pairwise.nil
  own_time _ hrecord := absurd hrecord List.not_mem_nil
  own_counter _ hrecord := absurd hrecord List.not_mem_nil
  sent _ := rfl
  distinct := List.nodup_nil

/-! ### Events that move no message -/

/-- Two states that agree on all messages and capabilities. -/
structure SameTraffic (state after : State peers Time T) : Prop where
  recvd : ∀ index, (after.workers index).recvd = (state.workers index).recvd
  unread : ∀ index, (after.unread index).Perm (state.unread index)
  capability : ∀ index, (after.workers index).capability = (state.workers index).capability
  counter : ∀ index, (after.workers index).counter = (state.workers index).counter
  emitted : after.emitted = state.emitted

theorem SameTraffic.held {state after : State peers Time T} (h : SameTraffic state after)
    (index : Fin peers) : (after.held index).Perm (state.held index) := by
  unfold State.held
  rw [h.recvd]
  exact (h.unread index).append_left _

theorem SameTraffic.safe {state after : State peers Time T} (h : SameTraffic state after)
    {index : Fin peers} {frontier : Option Time} (hsafe : state.Safe index frontier) :
    after.Safe index frontier := by
  cases frontier with
  | none =>
    obtain ⟨hcapabilities, hmessages⟩ := hsafe
    constructor
    · intro other
      rw [h.capability]
      exact hcapabilities other
    · apply List.Perm.eq_nil
      rw [← hmessages]
      exact h.unread index
  | some frontier =>
    obtain ⟨hcapabilities, hmessages⟩ := hsafe
    constructor
    · intro other
      rw [h.capability]
      exact hcapabilities other
    · intro message hmessage
      exact hmessages message ((h.unread index).mem_iff.mp hmessage)

theorem Ordered.sameTraffic {preload : List T} {released : Fin peers → List (Message Time T)}
    {state after : State peers Time T} (h : Ordered preload released state)
    (hsame : SameTraffic state after)
    (hsafe : ∀ index, after.Safe index (after.workers index).frontier)
    (hlogPrefix : ∀ index, (after.workers index).returned ++ (after.workers index).recv =
      (state.workers index).returned ++ (state.workers index).recv)
    (hpresent : ∀ index, (after.workers index).present = true → (state.workers index).present = true)
    (hsent : ∀ index, ∃ more, (after.workers index).send = (state.workers index).send ++ more ∧
      (after.workers index).pushed = (state.workers index).pushed ++ more) :
    Ordered preload released after where
  conserved index := by
    rw [hsame.emitted]
    exact ((hsame.held index).append_left _).trans (h.conserved index)
  sorted := h.sorted
  settled index message hmessage other hother :=
    h.settled index message hmessage other ((hsame.held index).mem_iff.mp hother)
  passed index message hmessage other := by
    rw [hsame.capability]
    exact h.passed index message hmessage other
  safe := hsafe
  log_prefix index := by
    rw [hlogPrefix]
    exact h.log_prefix index
  log index hafter := by
    rw [hlogPrefix]
    exact h.log index (hpresent index hafter)
  own := by
    rw [hsame.emitted]
    exact h.own
  own_time record hrecord := by
    rw [hsame.emitted] at hrecord
    rw [hsame.capability]
    exact h.own_time record hrecord
  own_counter record hrecord := by
    rw [hsame.emitted] at hrecord
    rw [hsame.counter]
    exact h.own_counter record hrecord
  sent index := by
    obtain ⟨more, hsend, hpushed⟩ := hsent index
    rw [hsame.emitted, hsend, hpushed, ← List.append_assoc, h.sent]
  distinct := by
    rw [hsame.emitted]
    exact h.distinct

@[simp] theorem workers_set (state : State peers Time T) (index other : Fin peers)
    (worker : Worker Time T) :
    (state.set index worker).workers other = if other = index then worker else state.workers other :=
  Function.update_apply _ _ _ _

/-- Changing one worker, but none of its messages and capabilities, moves no message. -/
theorem sameTraffic_set {state : State peers Time T} {index : Fin peers} {worker : Worker Time T}
    (hrecvd : worker.recvd = (state.workers index).recvd)
    (hqueue : worker.queue = (state.workers index).queue)
    (hcapability : worker.capability = (state.workers index).capability)
    (hcounter : worker.counter = (state.workers index).counter) :
    SameTraffic state (state.set index worker) := by
  have hall : ∀ {A : Type} (view : Worker Time T → A), view worker = view (state.workers index) →
      ∀ other, view ((state.set index worker).workers other) = view (state.workers other) := by
    intro A view hview other
    rw [workers_set]
    by_cases hother : other = index
    · subst hother
      rw [if_pos rfl, hview]
    · rw [if_neg hother]
  refine ⟨hall Worker.recvd hrecvd, ?_, hall Worker.capability hcapability,
    hall Worker.counter hcounter, rfl⟩
  intro other
  unfold State.unread
  rw [hall Worker.queue hqueue]
  exact List.Perm.refl _

/-- Changing the queues of one worker so that its log and what it has pushed stay accounted for. -/
theorem Ordered.set {preload : List T} {released : Fin peers → List (Message Time T)}
    {state : State peers Time T} (h : Ordered preload released state) {index : Fin peers}
    {worker : Worker Time T} (hsame : SameTraffic state (state.set index worker))
    (hsafe : state.Safe index worker.frontier)
    (hlog : worker.returned ++ worker.recv =
      (state.workers index).returned ++ (state.workers index).recv)
    (hpresent : worker.present = true → (state.workers index).present = true)
    (hsent : ∃ more, worker.send = (state.workers index).send ++ more ∧
      worker.pushed = (state.workers index).pushed ++ more) :
    Ordered preload released (state.set index worker) := by
  apply h.sameTraffic hsame
  · intro other
    apply hsame.safe
    rw [workers_set]
    by_cases hother : other = index
    · subst hother
      rwa [if_pos rfl]
    · rw [if_neg hother]
      exact h.safe other
  · intro other
    rw [workers_set]
    by_cases hother : other = index
    · subst hother
      rw [if_pos rfl, hlog]
    · rw [if_neg hother]
  · intro other hafter
    rw [workers_set] at hafter
    by_cases hother : other = index
    · subst hother
      rw [if_pos rfl] at hafter
      exact hpresent hafter
    · rwa [if_neg hother] at hafter
  · intro other
    rw [workers_set]
    by_cases hother : other = index
    · subst hother
      rw [if_pos rfl]
      exact hsent
    · rw [if_neg hother]
      exact ⟨[], (List.append_nil _).symm, (List.append_nil _).symm⟩

/-! ### Events that move messages -/

/-- An arrival moves a message from the network to the queue of the sink. -/
theorem sameTraffic_arrive {state after : State peers Time T} {index : Fin peers} {position : ℕ}
    (h : step state (.arrive index position) = some after) : SameTraffic state after := by
  obtain ⟨message, hmessage, rfl⟩ := Option.map_eq_some_iff.mp h
  obtain ⟨hposition, rfl⟩ := List.getElem?_eq_some_iff.mp hmessage
  have hall : ∀ {A : Type} (view : Worker Time T → A) (worker : Worker Time T),
      view worker = view (state.workers index) →
      ∀ other, view (Function.update state.workers index worker other) = view (state.workers other) := by
    intro A view worker hview other
    rw [Function.update_apply]
    by_cases hother : other = index
    · subst hother
      rw [if_pos rfl, hview]
    · rw [if_neg hother]
  refine ⟨hall Worker.recvd _ rfl, ?_, hall Worker.capability _ rfl, hall Worker.counter _ rfl, rfl⟩
  intro other
  unfold State.unread
  simp only [Function.update_apply]
  by_cases hother : other = index
  · subst hother
    rw [if_pos rfl, if_pos rfl, List.append_assoc]
    exact (List.getElem_cons_eraseIdx_perm hposition).append_left _
  · rw [if_neg hother, if_neg hother]

/-- What is released for a worker is what its frontier has passed, in order. -/
theorem released_sink (worker : Worker Time T) :
    ∃ sorted : List (Message Time T), sorted.Perm (worker.recvd ++ worker.queue) ∧
      (sorted.Pairwise fun first second => sortKey first ≤ sortKey second) ∧
      (worker.sink.recvd = sorted.filter fun message => worker.reached message.time) ∧
      worker.sink.recv = (if worker.present then worker.recv ++
        (sorted.filter fun message => !worker.reached message.time).map Message.element
          else worker.recv) := by
  have hsorted := List.pairwise_insertionSort
    (fun first second : Message Time T => sortKey first ≤ sortKey second) (worker.recvd ++ worker.queue)
  have hdown : ((worker.recvd ++ worker.queue).insertionSort fun first second =>
      sortKey first ≤ sortKey second).Pairwise fun first second =>
        (!worker.reached second.time) = true → (!worker.reached first.time) = true := by
    apply hsorted.imp
    intro first second hle hpassed
    have htime : first.time ≤ second.time := Prod.Lex.monotone_fst _ _ hle
    unfold Worker.reached at hpassed ⊢
    cases hfrontier : worker.frontier with
    | none => rfl
    | some frontier =>
      rw [hfrontier] at hpassed
      simp only [Option.any_some, Bool.not_eq_true', decide_eq_false_iff_not] at hpassed ⊢
      exact fun hreached => hpassed (hreached.trans htime)
  obtain ⟨htake, hdrop⟩ := take_length_filter hdown
  refine ⟨_, List.perm_insertionSort _ _, hsorted, ?_, ?_⟩
  · simp only [Bool.not_not] at hdrop
    exact hdrop
  · rw [← htake]
    rfl

/-- A message that the frontier has passed is before any that it has not, and before all that
    may still come. -/
theorem Safe.lt_of_passed {state : State peers Time T} {index : Fin peers}
    (hsafe : state.Safe index (state.workers index).frontier) {message : Message Time T}
    (hmessage : (state.workers index).reached message.time = false) :
    (∀ other : Message Time T, (state.workers index).reached other.time = true →
      message.time < other.time) ∧
    (∀ other ∈ state.unread index, message.time < other.time) ∧
    ∀ worker, ∀ capability ∈ (state.workers worker).capability, message.time < capability := by
  unfold Worker.reached at *
  cases hfrontier : (state.workers index).frontier with
  | none =>
    rw [hfrontier] at hsafe
    obtain ⟨hcapabilities, hunread⟩ := hsafe
    refine ⟨?_, ?_, ?_⟩
    · intro other hother
      cases hother
    · intro other hother
      rw [hunread] at hother
      cases hother
    · intro worker capability hcapability
      rw [hcapabilities worker] at hcapability
      cases hcapability
  | some frontier =>
    rw [hfrontier] at hsafe hmessage
    obtain ⟨hcapabilities, hunread⟩ := hsafe
    have hlt : message.time < frontier := by simpa using hmessage
    refine ⟨?_, ?_, ?_⟩
    · intro other hother
      exact lt_of_lt_of_le hlt (of_decide_eq_true hother)
    · intro other hother
      exact lt_of_lt_of_le hlt (hunread other hother)
    · intro worker capability hcapability
      exact lt_of_lt_of_le hlt (hcapabilities worker capability hcapability)

theorem Ordered.sink {preload : List T} {released : Fin peers → List (Message Time T)}
    {state : State peers Time T} (h : Ordered preload released state) (index : Fin peers) :
    ∃ more, Ordered preload (Function.update released index (released index ++ more))
      (state.set index (state.workers index).sink) := by
  obtain ⟨sorted, hperm, hsorted, hrecvd, hrecv⟩ := released_sink (state.workers index)
  generalize hpassed : (sorted.filter fun message =>
    !(state.workers index).reached message.time) = passed at hrecv
  have hmem : ∀ message ∈ passed, message ∈ state.held index ∧
      (state.workers index).reached message.time = false := by
    intro message hmessage
    rw [← hpassed, List.mem_filter] at hmessage
    have hheld := hperm.mem_iff.mp hmessage.1
    refine ⟨?_, by simpa using hmessage.2⟩
    unfold State.held State.unread
    rw [← List.append_assoc]
    exact List.mem_append_left _ hheld
  have hsink : ∀ other, (state.set index (state.workers index).sink).workers other =
      if other = index then (state.workers index).sink else state.workers other :=
    fun other => workers_set state index other _
  have hreleased : ∀ other, Function.update released index (released index ++ passed) other =
      if other = index then released index ++ passed else released other := by
    intro other
    rw [Function.update_apply]
  -- what stays held was held before, and lies behind all that is released now
  have hheld : (passed ++ (state.set index (state.workers index).sink).held index).Perm
      (state.held index) := by
    have hsplit := List.filter_append_perm
      (fun message => !(state.workers index).reached message.time) sorted
    simp only [Bool.not_not, hpassed] at hsplit
    unfold State.held State.unread
    rw [hsink, if_pos rfl, hrecvd, ← List.append_assoc]
    rw [← List.append_assoc (state.workers index).recvd]
    change ((passed ++ _) ++ state.in_flight index).Perm _
    exact (hsplit.trans hperm).append_right _
  have hbehind : ∀ message ∈ passed, ∀ other ∈
      (state.set index (state.workers index).sink).held index, message.time < other.time := by
    intro message hmessage other hother
    have hlt := Safe.lt_of_passed (h.safe index) (hmem message hmessage).2
    unfold State.held State.unread at hother
    rw [hsink, if_pos rfl, hrecvd] at hother
    rcases List.mem_append.mp hother with hkept | hunread
    · exact hlt.1 other (List.mem_filter.mp hkept).2
    · exact hlt.2.1 other (List.mem_append_right _ hunread)
  have hother : ∀ other, other ≠ index →
      (state.set index (state.workers index).sink).held other = state.held other := by
    intro other hne
    unfold State.held State.unread
    rw [hsink, if_neg hne]
    rfl
  have hcapability : ∀ other, ((state.set index (state.workers index).sink).workers other).capability =
      (state.workers other).capability := by
    intro other
    rw [hsink]
    by_cases heq : other = index
    · subst heq
      rw [if_pos rfl]
      rfl
    · rw [if_neg heq]
  refine ⟨passed, ⟨?_, ?_, ?_, ?_, ?_, ?_, ?_, h.own, ?_, ?_, ?_, h.distinct⟩⟩
  · intro other
    rw [hreleased]
    by_cases heq : other = index
    · subst heq
      rw [if_pos rfl, List.append_assoc]
      exact (hheld.append_left _).trans (h.conserved other)
    · rw [if_neg heq, hother other heq]
      exact h.conserved other
  · intro other
    rw [hreleased]
    by_cases heq : other = index
    · subst heq
      rw [if_pos rfl, List.pairwise_append]
      refine ⟨h.sorted other, ?_, ?_⟩
      · rw [← hpassed]
        exact hsorted.sublist List.filter_sublist
      · intro message hmessage later hlater
        have hlt := h.settled other message hmessage later (hmem later hlater).1
        exact le_of_lt (Prod.Lex.toLex_lt_toLex.mpr (Or.inl hlt))
    · rw [if_neg heq]
      exact h.sorted other
  · intro other
    rw [hreleased]
    by_cases heq : other = index
    · subst heq
      rw [if_pos rfl]
      intro message hmessage later hlater
      rcases List.mem_append.mp hmessage with hold | hnew
      · exact h.settled other message hold later
          (hheld.mem_iff.mp (List.mem_append_right _ hlater))
      · exact hbehind message hnew later hlater
    · rw [if_neg heq, hother other heq]
      exact h.settled other
  · intro other message hmessage worker capability hmember
    rw [hcapability] at hmember
    rw [hreleased] at hmessage
    by_cases heq : other = index
    · subst heq
      rw [if_pos rfl] at hmessage
      rcases List.mem_append.mp hmessage with hold | hnew
      · exact h.passed other message hold worker capability hmember
      · exact (Safe.lt_of_passed (h.safe other) (hmem message hnew).2).2.2 worker capability hmember
    · rw [if_neg heq] at hmessage
      exact h.passed other message hmessage worker capability hmember
  · intro other
    have hunread : ∀ message ∈ (state.set index (state.workers index).sink).unread other,
        message ∈ state.unread other := by
      intro message hmessage
      unfold State.unread at hmessage ⊢
      rw [hsink] at hmessage
      by_cases heq : other = index
      · subst heq
        rw [if_pos rfl] at hmessage
        exact List.mem_append_right _ hmessage
      · rwa [if_neg heq] at hmessage
    have hfrontier : ((state.set index (state.workers index).sink).workers other).frontier =
        (state.workers other).frontier := by
      rw [hsink]
      by_cases heq : other = index
      · subst heq
        rw [if_pos rfl]
        rfl
      · rw [if_neg heq]
    have hsafe := h.safe other
    rw [hfrontier]
    cases hcase : (state.workers other).frontier with
    | none =>
      rw [hcase] at hsafe
      refine ⟨fun worker => (hcapability worker).trans (hsafe.1 worker), ?_⟩
      apply List.eq_nil_iff_forall_not_mem.mpr
      intro message hmessage
      have hmember := hunread message hmessage
      rw [hsafe.2] at hmember
      cases hmember
    | some frontier =>
      rw [hcase] at hsafe
      constructor
      · intro worker
        rw [hcapability]
        exact hsafe.1 worker
      · intro message hmessage
        exact hsafe.2 message (hunread message hmessage)
  · intro other
    rw [hsink, hreleased]
    by_cases heq : other = index
    · subst heq
      rw [if_pos rfl, if_pos rfl, hrecv]
      change (state.workers other).returned ++ _ <+: _
      by_cases hpresent : (state.workers other).present = true
      · refine ⟨[], ?_⟩
        rw [List.append_nil, if_pos hpresent, ← List.append_assoc, h.log other hpresent,
          List.map_append, List.append_assoc]
      · rw [if_neg hpresent, List.map_append, ← List.append_assoc]
        exact (h.log_prefix other).trans (List.prefix_append _ _)
    · rw [if_neg heq, if_neg heq]
      exact h.log_prefix other
  · intro other hpresent
    rw [hsink, hreleased] at *
    by_cases heq : other = index
    · subst heq
      rw [if_pos rfl] at hpresent
      have hpresent' : (state.workers other).present = true := hpresent
      rw [if_pos rfl, if_pos rfl, hrecv, if_pos hpresent']
      change (state.workers other).returned ++ _ = _
      rw [← List.append_assoc, h.log other hpresent', List.map_append, List.append_assoc]
    · rw [if_neg heq] at hpresent
      rw [if_neg heq, if_neg heq]
      exact h.log other hpresent
  · intro record hrecord
    rw [hcapability]
    exact h.own_time record hrecord
  · intro record hrecord
    have hcounter := h.own_counter record hrecord
    rw [hsink]
    by_cases heq : record.source = index
    · rw [if_pos heq, ← heq]
      exact hcounter
    · rwa [if_neg heq]
  · intro other
    have hsent := h.sent other
    rw [hsink]
    by_cases heq : other = index
    · subst heq
      rw [if_pos rfl]
      exact hsent
    · rw [if_neg heq]
      exact hsent

/-! ### The source -/

/-- The elements that a source emits, as records. -/
def fresh (index : Fin peers) (elapsed : Time) (elements : List (T × ℕ)) :
    List (Emitted peers Time T) :=
  elements.map fun entry => ⟨index, elapsed, entry.2, entry.1⟩

/-- What one invocation of a source can do: it emits the first of its elements under consecutive
    counters, and only with a capability that the timer has not yet passed. -/
structure SourceStep (elapsed : Time) (worker after : Worker Time T) (elements : List (T × ℕ)) :
    Prop where
  grounded : elements ≠ [] ∨ after.capability ≠ none →
    ∃ capability ∈ worker.capability, capability ≤ elapsed
  capability : ∀ capability ∈ after.capability, capability = elapsed
  numbered : elements = (elements.map Prod.fst).zipIdx worker.counter
  counter : after.counter = worker.counter + elements.length
  sent : elements.map Prod.fst ++ after.send = worker.send
  recvd : after.recvd = worker.recvd
  queue : after.queue = worker.queue
  frontier : after.frontier = worker.frontier
  recv : after.recv = worker.recv
  returned : after.returned = worker.returned
  present : after.present = worker.present
  pushed : after.pushed = worker.pushed

theorem sourceStep_of_source {elapsed : Time} {worker after : Worker Time T}
    {elements : List (T × ℕ)} (h : worker.source elapsed = some (after, elements)) :
    SourceStep elapsed worker after elements := by
  unfold Worker.source at h
  by_cases hpresent : worker.present = true
  · rw [if_pos hpresent] at h
    cases hcapability : worker.capability with
    | none =>
      rw [hcapability] at h
      cases h
    | some capability =>
      rw [hcapability] at h
      by_cases hle : capability ≤ elapsed
      · simp only [if_pos hle, Option.some.injEq, Prod.mk.injEq] at h
        obtain ⟨rfl, rfl⟩ := h
        refine ⟨fun _ => ⟨capability, hcapability, hle⟩, ?_, ?_, ?_, ?_,
          rfl, rfl, rfl, rfl, rfl, rfl, rfl⟩
        · intro other hother
          exact (Option.mem_some_iff.mp hother).symm
        · rw [List.zipIdx_map_fst]
        · rw [List.length_zipIdx]
        · rw [List.zipIdx_map_fst, List.append_nil]
      · simp only [if_neg hle] at h
        cases h
  · rw [if_neg hpresent] at h
    obtain ⟨rfl, rfl⟩ := Prod.mk.inj (Option.some.inj h)
    refine ⟨?_, ?_, rfl, rfl, rfl, rfl, rfl, rfl, rfl, rfl, rfl, rfl⟩
    · rintro (hne | hne)
      · exact absurd rfl hne
      · exact absurd rfl hne
    · intro capability hcapability
      cases hcapability

section Fresh

variable {elapsed : Time} {worker after : Worker Time T} {elements : List (T × ℕ)}
  {index : Fin peers} {record : Emitted peers Time T}

theorem SourceStep.of_mem_fresh (h : SourceStep elapsed worker after elements)
    (hrecord : record ∈ fresh index elapsed elements) :
    record.source = index ∧ record.time = elapsed ∧ worker.counter ≤ record.counter ∧
      record.counter < worker.counter + elements.length := by
  obtain ⟨entry, hentry, rfl⟩ := List.mem_map.mp hrecord
  rw [h.numbered] at hentry
  have hlower := List.le_snd_of_mem_zipIdx hentry
  have hupper := List.snd_lt_add_of_mem_zipIdx hentry
  rw [List.length_map] at hupper
  exact ⟨rfl, rfl, hlower, hupper⟩

theorem SourceStep.pairwise_fresh (h : SourceStep elapsed worker after elements) :
    (fresh index elapsed elements).Pairwise fun first second => first.stamp < second.stamp := by
  apply List.pairwise_map.mpr
  have hcounters : (elements.map Prod.snd).Pairwise (· < ·) := by
    rw [h.numbered, List.zipIdx_map_snd]
    exact List.pairwise_lt_range'
  apply (List.pairwise_map.mp hcounters).imp
  intro first second hlt
  exact Prod.Lex.toLex_lt_toLex.mpr (Or.inr ⟨rfl, hlt⟩)

theorem SourceStep.length_le (h : SourceStep elapsed worker after elements) :
    elements.length ≤ worker.send.length := by
  rw [← h.sent, List.length_append, List.length_map]
  exact Nat.le_add_right _ _

end Fresh

/-- The outcome of a source event. -/
theorem source_event {state after : State peers Time T} {index : Fin peers} {elapsed : Time}
    (h : step state (.source index elapsed) = some after) :
    ∃ worker elements, SourceStep elapsed (state.workers index) worker elements ∧
      after.workers = Function.update state.workers index worker ∧
      (∀ target, after.in_flight target = state.in_flight target ++
        (fresh index elapsed elements).map (Emitted.message target)) ∧
      after.emitted = state.emitted ++ fresh index elapsed elements := by
  obtain ⟨⟨worker, elements⟩, houtcome, rfl⟩ := Option.map_eq_some_iff.mp h
  refine ⟨worker, elements, sourceStep_of_source houtcome, rfl, ?_, rfl⟩
  intro target
  exact congrArg (state.in_flight target ++ ·) (filter_broadcast elapsed elements target index)

theorem Ordered.source {preload : List T} {released : Fin peers → List (Message Time T)}
    {state after : State peers Time T} (h : Ordered preload released state) {index : Fin peers}
    {elapsed : Time} (huntied : Untied state (.source index elapsed))
    (hevent : step state (.source index elapsed) = some after) : Ordered preload released after := by
  obtain ⟨worker, elements, hstep, hworkers, hin_flight, hemitted⟩ := source_event hevent
  have hworker : ∀ other, after.workers other = if other = index then worker else state.workers other := by
    intro other
    rw [hworkers, Function.update_apply]
  have hview : ∀ {A : Type} (view : Worker Time T → A), view worker = view (state.workers index) →
      ∀ other, view (after.workers other) = view (state.workers other) := by
    intro A view hview other
    rw [hworker]
    by_cases hother : other = index
    · subst hother
      rw [if_pos rfl, hview]
    · rw [if_neg hother]
  have hunread : ∀ other, after.unread other =
      state.unread other ++ (fresh index elapsed elements).map (Emitted.message other) := by
    intro other
    unfold State.unread
    rw [hin_flight, hview Worker.queue hstep.queue, List.append_assoc]
  have hheld : ∀ other, after.held other =
      state.held other ++ (fresh index elapsed elements).map (Emitted.message other) := by
    intro other
    unfold State.held
    rw [hunread, hview Worker.recvd hstep.recvd, List.append_assoc]
  -- what is below all capabilities is below what the source may still do
  have hground : ∀ {record}, record ∈ fresh index elapsed elements →
      ∃ capability ∈ (state.workers index).capability, capability ≤ elapsed := by
    intro record hrecord
    apply hstep.grounded
    left
    rintro rfl
    exact absurd hrecord List.not_mem_nil
  have hcapability : ∀ other, ∀ capability ∈ (after.workers other).capability,
      ∃ before ∈ (state.workers other).capability, before ≤ capability := by
    intro other capability hmember
    rw [hworker] at hmember
    by_cases hother : other = index
    · subst hother
      rw [if_pos rfl] at hmember
      obtain rfl := hstep.capability capability hmember
      apply hstep.grounded
      right
      rw [Option.mem_def.mp hmember]
      exact Option.some_ne_none _
    · rw [if_neg hother] at hmember
      exact ⟨capability, hmember, le_rfl⟩
  have hmessage : ∀ other, ∀ message ∈ (fresh index elapsed elements).map (Emitted.message other),
      message.time = elapsed ∧ ∃ capability ∈ (state.workers index).capability, capability ≤ elapsed := by
    intro other message hmember
    obtain ⟨record, hrecord, rfl⟩ := List.mem_map.mp hmember
    exact ⟨(hstep.of_mem_fresh hrecord).2.1, hground hrecord⟩
  -- a record of this source is earlier than all that the source emits from now on
  have hold : ∀ record ∈ state.emitted, ∀ new ∈ fresh index elapsed elements,
      record.source = index → record.stamp < new.stamp := by
    intro record hrecord new hnew hsource
    obtain ⟨-, htime, hcounter, -⟩ := hstep.of_mem_fresh hnew
    obtain ⟨capability, hmember, hle⟩ := hground hnew
    rw [← hsource] at hmember hcounter
    have hrecordTime := (h.own_time record hrecord capability hmember).trans hle
    apply Prod.Lex.toLex_lt_toLex.mpr
    rw [htime]
    rcases lt_or_eq_of_le hrecordTime with hlt | heq
    · exact Or.inl hlt
    · exact Or.inr ⟨heq, (h.own_counter record hrecord).trans_le hcounter⟩
  refine ⟨?_, h.sorted, ?_, ?_, ?_, ?_, ?_, ?_, ?_, ?_, ?_, ?_⟩
  · intro other
    rw [hheld, hemitted, List.map_append, ← List.append_assoc]
    exact (h.conserved other).append_right _
  · intro other message hreleased later hlater
    rw [hheld] at hlater
    rcases List.mem_append.mp hlater with hbefore | hnew
    · exact h.settled other message hreleased later hbefore
    · obtain ⟨htime, capability, hmember, hle⟩ := hmessage other later hnew
      rw [htime]
      exact (h.passed other message hreleased index capability hmember).trans_le hle
  · intro other message hreleased holder capability hmember
    obtain ⟨before, hbefore, hle⟩ := hcapability holder capability hmember
    exact (h.passed other message hreleased holder before hbefore).trans_le hle
  · intro other
    have hsafe := h.safe other
    rw [hview Worker.frontier hstep.frontier]
    cases hcase : (state.workers other).frontier with
    | none =>
      rw [hcase] at hsafe
      constructor
      · intro holder
        apply Option.eq_none_iff_forall_not_mem.mpr
        intro capability hmember
        obtain ⟨before, hbefore, -⟩ := hcapability holder capability hmember
        rw [hsafe.1 holder] at hbefore
        cases hbefore
      · rw [hunread, hsafe.2, List.nil_append]
        apply List.eq_nil_iff_forall_not_mem.mpr
        intro message hnew
        obtain ⟨-, capability, hmember, -⟩ := hmessage other message hnew
        rw [hsafe.1 index] at hmember
        cases hmember
    | some frontier =>
      rw [hcase] at hsafe
      constructor
      · intro holder capability hmember
        obtain ⟨before, hbefore, hle⟩ := hcapability holder capability hmember
        exact (hsafe.1 holder before hbefore).trans hle
      · intro message hmember
        rw [hunread] at hmember
        rcases List.mem_append.mp hmember with hbefore | hnew
        · exact hsafe.2 message hbefore
        · obtain ⟨htime, capability, hcapable, hle⟩ := hmessage other message hnew
          rw [htime]
          exact (hsafe.1 index capability hcapable).trans hle
  · intro other
    rw [hview Worker.returned hstep.returned, hview Worker.recv hstep.recv]
    exact h.log_prefix other
  · intro other hpresent
    rw [hview Worker.present hstep.present] at hpresent
    rw [hview Worker.returned hstep.returned, hview Worker.recv hstep.recv]
    exact h.log other hpresent
  · rw [hemitted, List.pairwise_append]
    refine ⟨h.own, List.Pairwise.imp ?_ hstep.pairwise_fresh, ?_⟩
    · intro first second hlt _
      exact hlt
    · intro record hrecord new hnew hsource
      exact hold record hrecord new hnew (hsource.trans (hstep.of_mem_fresh hnew).1)
  · intro record hrecord capability hmember
    rw [hemitted] at hrecord
    rcases List.mem_append.mp hrecord with hbefore | hnew
    · obtain ⟨before, hcapable, hle⟩ := hcapability record.source capability hmember
      exact (h.own_time record hbefore before hcapable).trans hle
    · obtain ⟨hsource, htime, -, -⟩ := hstep.of_mem_fresh hnew
      rw [hworker, if_pos hsource] at hmember
      rw [htime, hstep.capability capability hmember]
  · intro record hrecord
    rw [hemitted] at hrecord
    rw [hworker]
    rcases List.mem_append.mp hrecord with hbefore | hnew
    · have hcounter := h.own_counter record hbefore
      by_cases hsource : record.source = index
      · rw [if_pos hsource, hstep.counter, ← hsource]
        exact hcounter.trans_le (Nat.le_add_right _ _)
      · rwa [if_neg hsource]
    · obtain ⟨hsource, -, -, hcounter⟩ := hstep.of_mem_fresh hnew
      rw [if_pos hsource, hstep.counter]
      exact hcounter
  · intro other
    have hsent := h.sent other
    rw [hworker, hemitted, List.filter_append, List.map_append]
    by_cases hother : other = index
    · subst hother
      have hall : (fresh other elapsed elements).filter (fun record => decide (record.source = other)) =
          fresh other elapsed elements := by
        apply List.filter_eq_self.mpr
        intro record hrecord
        exact decide_eq_true (hstep.of_mem_fresh hrecord).1
      have helement : (fresh other elapsed elements).map Emitted.element = elements.map Prod.fst :=
        List.map_map
      rw [if_pos rfl, hall, helement, List.append_assoc, hstep.sent, hstep.pushed]
      exact hsent
    · have hnone : (fresh index elapsed elements).filter (fun record => decide (record.source = other)) =
          [] := by
        apply List.filter_eq_nil_iff.mpr
        intro record hrecord hsource
        exact hother ((of_decide_eq_true hsource).symm.trans (hstep.of_mem_fresh hrecord).1)
      rw [if_neg hother, hnone, List.map_nil, List.append_nil]
      exact hsent
  · rw [hemitted, List.map_append, List.nodup_append]
    refine ⟨h.distinct, ?_, ?_⟩
    · exact List.pairwise_map.mpr (hstep.pairwise_fresh.imp fun hlt => ne_of_lt hlt)
    · intro stamp hstamp stamp' hstamp' heq
      subst heq
      obtain ⟨record, hrecord, hrecordStamp⟩ := List.mem_map.mp hstamp
      obtain ⟨new, hnew, hnewStamp⟩ := List.mem_map.mp hstamp'
      obtain ⟨-, htime, hlower, hupper⟩ := hstep.of_mem_fresh hnew
      have hsame : record.stamp = new.stamp := hrecordStamp.trans hnewStamp.symm
      by_cases hsource : record.source = index
      · exact absurd hsame (ne_of_lt (hold record hrecord new hnew hsource))
      · -- another worker's record of this time has none of the counters given out now
        obtain ⟨hsameTime, hsameCounter⟩ := Prod.mk.inj (toLex.injective hsame)
        have hlength := hstep.length_le
        rcases huntied record hrecord hsource (hsameTime.trans htime) with hlt | hle
        · omega
        · omega

/-! ### Runs -/

/-- Every event without a tie keeps the invariant. -/
theorem Ordered.step {preload : List T} {released : Fin peers → List (Message Time T)}
    {state after : State peers Time T} {event : Event peers Time T}
    (h : Ordered preload released state) (hstep : UntiedStep state event after) :
    ∃ released, Ordered preload released after := by
  obtain ⟨huntied, hevent⟩ := hstep
  cases event with
  | push index element =>
    obtain ⟨-, hafter⟩ := Option.ite_none_right_eq_some.mp hevent
    obtain rfl := Option.some.inj hafter
    exact ⟨released, h.set (sameTraffic_set rfl rfl rfl rfl) (h.safe index) rfl id
      ⟨[element], rfl, rfl⟩⟩
  | next index =>
    obtain ⟨-, hafter⟩ := Option.ite_none_right_eq_some.mp hevent
    obtain rfl := Option.some.inj hafter
    refine ⟨released, ?_⟩
    unfold Worker.next
    cases hrecv : (state.workers index).recv with
    | nil =>
      exact h.set (sameTraffic_set rfl rfl rfl rfl) (h.safe index) rfl id
        ⟨[], (List.append_nil _).symm, (List.append_nil _).symm⟩
    | cons element recv =>
      refine h.set (sameTraffic_set rfl rfl rfl rfl) (h.safe index) ?_ id
        ⟨[], (List.append_nil _).symm, (List.append_nil _).symm⟩
      rw [hrecv]
      exact List.append_assoc _ [element] recv
  | drop index =>
    obtain rfl := Option.some.inj hevent
    refine ⟨released, h.set (sameTraffic_set rfl rfl rfl rfl) (h.safe index) rfl ?_
      ⟨[], (List.append_nil _).symm, (List.append_nil _).symm⟩⟩
    intro hpresent
    cases hpresent
  | source index elapsed => exact ⟨released, h.source huntied hevent⟩
  | arrive index position =>
    have hsame := sameTraffic_arrive hevent
    obtain ⟨message, -, rfl⟩ := Option.map_eq_some_iff.mp hevent
    have hview : ∀ {A : Type} (view : Worker Time T → A),
        (∀ worker queue, view { worker with queue := queue } = view worker) → ∀ other,
        view (Function.update state.workers index
          { state.workers index with queue := (state.workers index).queue ++ [message] } other) =
        view (state.workers other) := by
      intro A view hview other
      rw [Function.update_apply]
      by_cases hother : other = index
      · subst hother
        rw [if_pos rfl, hview]
      · rw [if_neg hother]
    refine ⟨released, h.sameTraffic hsame ?_ ?_ ?_ ?_⟩
    · intro other
      rw [hview Worker.frontier fun _ _ => rfl]
      exact hsame.safe (h.safe other)
    · intro other
      rw [hview Worker.returned fun _ _ => rfl, hview Worker.recv fun _ _ => rfl]
    · intro other hpresent
      rwa [hview Worker.present fun _ _ => rfl] at hpresent
    · intro other
      refine ⟨[], ?_, ?_⟩
      · rw [hview Worker.send fun _ _ => rfl, List.append_nil]
      · rw [hview Worker.pushed fun _ _ => rfl, List.append_nil]
  | advance index frontier =>
    obtain ⟨hsafe, hafter⟩ := Option.ite_none_right_eq_some.mp hevent
    obtain rfl := Option.some.inj hafter
    exact ⟨released, h.set (sameTraffic_set rfl rfl rfl rfl) hsafe rfl id
      ⟨[], (List.append_nil _).symm, (List.append_nil _).symm⟩⟩
  | sink index =>
    obtain rfl := Option.some.inj hevent
    obtain ⟨more, hmore⟩ := h.sink index
    exact ⟨_, hmore⟩

theorem ordered_run {start : Time} {preload : List T} {events : List (Event peers Time T)}
    {state : State peers Time T}
    (hrun : Run UntiedStep (State.preloaded start preload) events state) :
    ∃ released, Ordered preload released state := by
  refine hrun.invariant (P := fun _ state => ∃ released, Ordered preload released state)
    ⟨_, ordered_preloaded start preload⟩ ?_
  rintro labels before event after ⟨released, hordered⟩ hstep
  exact hordered.step hstep

/-! ### The one order -/

/-- All emitted elements by time and counter. -/
def State.order (state : State peers Time T) : List (Emitted peers Time T) :=
  state.emitted.insertionSort fun first second => first.stamp ≤ second.stamp

theorem Ordered.order_sorted {preload : List T} {released : Fin peers → List (Message Time T)}
    {state : State peers Time T} (h : Ordered preload released state) :
    state.order.Pairwise fun first second => first.stamp < second.stamp := by
  apply strictly_sorted_of_nodup
  · exact List.pairwise_insertionSort
      (fun first second : Emitted peers Time T => first.stamp ≤ second.stamp) state.emitted
  · exact ((List.perm_insertionSort _ _).map _).nodup_iff.mpr h.distinct

/-- What is released at a worker comes first in the one order. -/
theorem Ordered.released_prefix {preload : List T} {released : Fin peers → List (Message Time T)}
    {state : State peers Time T} (h : Ordered preload released state) (index : Fin peers) :
    released index <+: state.order.map (Emitted.message index) := by
  have hstrict : (state.order.map (Emitted.message index)).Pairwise fun first second =>
      sortKey first < sortKey second := by
    apply List.pairwise_map.mpr
    apply h.order_sorted.imp
    intro first second hlt
    rcases Prod.Lex.toLex_lt_toLex.mp hlt with htime | ⟨htime, hcounter⟩
    · exact Prod.Lex.toLex_lt_toLex.mpr (Or.inl htime)
    · exact Prod.Lex.toLex_lt_toLex.mpr
        (Or.inr ⟨htime, Prod.Lex.toLex_lt_toLex.mpr (Or.inr ⟨rfl, hcounter⟩)⟩)
  generalize hrest : (state.held index).insertionSort
    (fun first second => sortKey first ≤ sortKey second) = rest
  have hrestPerm : rest.Perm (state.held index) := by
    rw [← hrest]
    exact List.perm_insertionSort _ _
  have hrestSorted : rest.Pairwise fun first second => sortKey first ≤ sortKey second := by
    rw [← hrest]
    exact List.pairwise_insertionSort _ _
  have hperm : (released index ++ rest).Perm (state.order.map (Emitted.message index)) :=
    ((hrestPerm.append_left _).trans (h.conserved index)).trans
      ((List.perm_insertionSort _ _).map _).symm
  have hsorted : (released index ++ rest).Pairwise fun first second => sortKey first ≤ sortKey second := by
    apply List.pairwise_append.mpr
    refine ⟨h.sorted index, hrestSorted, ?_⟩
    intro message hmessage other hother
    have hlt := h.settled index message hmessage other (hrestPerm.mem_iff.mp hother)
    exact le_of_lt (Prod.Lex.toLex_lt_toLex.mpr (Or.inl hlt))
  have hnodup : ((released index ++ rest).map sortKey).Nodup := by
    apply ((hperm.map sortKey).nodup_iff).mpr
    exact List.pairwise_map.mpr (hstrict.imp fun hlt => ne_of_lt hlt)
  rw [← eq_of_strictly_sorted hperm (strictly_sorted_of_nodup hsorted hnodup) hstrict]
  exact List.prefix_append _ _

/-- In the one order the elements of a worker are in the order in which they were pushed. -/
theorem Ordered.order_source {preload : List T} {released : Fin peers → List (Message Time T)}
    {state : State peers Time T} (h : Ordered preload released state) (index : Fin peers) :
    (state.order.filter fun record => decide (record.source = index)).map Emitted.element <+:
      (state.workers index).pushed := by
  have hperm : (state.order.filter fun record => decide (record.source = index)).Perm
      (state.emitted.filter fun record => decide (record.source = index)) :=
    (List.perm_insertionSort _ _).filter _
  have hown : (state.emitted.filter fun record => decide (record.source = index)).Pairwise
      fun first second => first.stamp < second.stamp := by
    apply (h.own.filter _).imp_of_mem
    intro first second hfirst hsecond hlt
    have hsource := of_decide_eq_true (List.mem_filter.mp hfirst).2
    have hsource' := of_decide_eq_true (List.mem_filter.mp hsecond).2
    exact hlt (hsource.trans hsource'.symm)
  rw [eq_of_strictly_sorted hperm (h.order_sorted.filter _) hown, ← h.sent index]
  exact List.prefix_append _ _

/-- As long as no two workers emit elements with one time and one counter, what `next` returns
    at any worker is an initial segment of one log, in which the elements of each worker are in
    the order in which they were pushed. -/
theorem sequencer_total_order (start : Time) (preload : List T) {events : List (Event peers Time T)}
    {state : State peers Time T}
    (hrun : Run UntiedStep (State.preloaded start preload) events state) :
    (∀ first second, (state.workers first).returned <+: (state.workers second).returned ∨
      (state.workers second).returned <+: (state.workers first).returned) ∧
    ∃ order : List (Emitted peers Time T),
      (∀ index, (state.workers index).returned <+: preload ++ order.map Emitted.element) ∧
      ∀ index, (order.filter fun record => decide (record.source = index)).map Emitted.element <+:
        (state.workers index).pushed := by
  obtain ⟨released, h⟩ := ordered_run hrun
  have hlog : ∀ index,
      (state.workers index).returned <+: preload ++ state.order.map Emitted.element := by
    intro index
    have hreleased := (h.released_prefix index).map Message.element
    rw [List.map_map] at hreleased
    have hreturned : (state.workers index).returned <+: preload ++ (released index).map Message.element :=
      (List.prefix_append _ _).trans (h.log_prefix index)
    exact hreturned.trans ((List.prefix_append_right_inj preload).mpr hreleased)
  exact ⟨fun first second => List.prefix_or_prefix_of_prefix (hlog first) (hlog second),
    state.order, hlog, h.order_source⟩

/-- Two workers that push an element each, read the timer, and get the elements in different
    orders. -/
def tied_events (elapsed elapsed' : ℕ) : List (Event 2 ℕ Bool) :=
  [.push 0 true, .push 1 false, .source 0 elapsed, .source 1 elapsed', .arrive 0 0, .arrive 0 0,
    .arrive 1 1, .arrive 1 0, .sink 0, .sink 1, .source 0 6, .source 1 6, .advance 0 (some 6),
    .advance 1 (some 6), .sink 0, .sink 1, .next 0, .next 0, .next 1, .next 1]

theorem sequencer_total_order_example : ∃ state : State 2 ℕ Bool,
    Run UntiedStep (State.preloaded 0 []) (tied_events 4 5) state ∧
      ((state.workers 0).returned <+: (state.workers 1).returned ∨
        (state.workers 1).returned <+: (state.workers 0).returned) := by
  have hfold : ((tied_events 4 5).foldlM (fun state event =>
      if Untied state event then step state event else none) (State.preloaded 0 [])).isSome = true := by
    decide
  obtain ⟨state, hstate⟩ := Option.isSome_iff_exists.mp hfold
  have hrun : Run UntiedStep (State.preloaded 0 []) (tied_events 4 5) state :=
    (Run.of_foldlM hstate).mono fun hstep => Option.ite_none_right_eq_some.mp hstep
  exact ⟨state, hrun, (sequencer_total_order 0 [] hrun).1 0 1⟩

/-- Two workers that read the same time may see two orders. -/
theorem sequencer_ties_disagree : ∃ state : State 2 ℕ Bool,
    Run (fun before event after => step before event = some after) (State.preloaded 0 [])
      (tied_events 5 5) state ∧
    (state.workers 0).returned = [true, false] ∧ (state.workers 1).returned = [false, true] ∧
    ¬ ((state.workers 0).returned <+: (state.workers 1).returned ∨
      (state.workers 1).returned <+: (state.workers 0).returned) := by
  have hfold : (((tied_events 5 5).foldlM step (State.preloaded 0 [])).map fun state =>
      ((state.workers 0).returned, (state.workers 1).returned)) =
        some ([true, false], [false, true]) := by
    decide
  obtain ⟨state, hstate, hreturned⟩ := Option.map_eq_some_iff.mp hfold
  obtain ⟨hfirst, hsecond⟩ := Prod.mk.inj hreturned
  refine ⟨state, Run.of_foldlM hstate, hfirst, hsecond, ?_⟩
  rw [hfirst, hsecond]
  decide

end Sequencer

end Timely
