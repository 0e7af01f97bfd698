/-
  Timely/Fpga/Replies.lean
  ========================
  **Replies that come late** (`fpga_wrapper.rs`, `raw_logic`).

  The device is a queue that answers its oldest frame, now or later.  A reply is read by
  whichever exchange it comes in, and credited at the time that exchange goes by.  Frames
  that wait for a reply are counted, but the wrapper never reports itself incomplete.
-/
import Timely.Fpga.Frames

set_option linter.unusedSectionVars false

namespace Timely.Fpga

open Library

/-! ### A device that answers in order -/

/-- The frames that are not answered yet, and the number of frames received. -/
structure Fifo where
  pending : List Frame
  asked : ℕ

/-- A reply that repeats the time of the frame it answers. -/
def echo (reply oldest : Frame) : Frame := reply.set 1 (time_word oldest) time_index_lt

/-- Each time it is asked the device answers the oldest frame or, where `decisions` has no reply,
    waits. -/
def fifo (decisions : ℕ → Option Frame) (hc : Fifo) (frame : Frame) : Option Frame × Fifo :=
  match decisions hc.asked, hc.pending ++ [frame] with
  | some reply, oldest :: rest => (some (echo reply oldest), ⟨rest, hc.asked + 1⟩)
  | _, pending => (none, ⟨pending, hc.asked + 1⟩)

variable {decisions : ℕ → Option Frame}

theorem fifo_none {hc : Fifo} (h : decisions hc.asked = none) (frame : Frame) :
    fifo decisions hc frame = (none, ⟨hc.pending ++ [frame], hc.asked + 1⟩) := by
  unfold fifo
  rw [h]

/-- The frame that a reply in this exchange answers. -/
def Exchange.answered (exchange : Exchange Fifo) : Frame :=
  (exchange.state.operator.hc.pending ++ [exchange.frame]).head (by simp)

theorem fifo_some {hc : Fifo} {reply : Frame} (h : decisions hc.asked = some reply) (frame : Frame) :
    fifo decisions hc frame =
      (some (echo reply ((hc.pending ++ [frame]).head (by simp))),
        ⟨(hc.pending ++ [frame]).tail, hc.asked + 1⟩) := by
  unfold fifo
  rw [h]
  cases hc.pending <;> rfl

/-! ### Echoed replies -/

theorem decode_echo (reply oldest : Frame) : decode (echo reply oldest) = decode reply := by
  unfold decode echo
  rw [Vector.toList_set, List.drop_set_of_lt (by decide)]

theorem time_word_echo (reply oldest : Frame) : time_word (echo reply oldest) = time_word oldest :=
  Vector.getElem_set_self time_index_lt

theorem counters_of_echo {operator : FpgaOperator Fifo} (h : operator.ghost_indexes ≠ [])
    (reply oldest : Frame) (ghost : ℕ × ℕ) :
    counters_of operator (echo reply oldest) ghost = counters_of operator reply ghost := by
  have hsome := List.length_pos_iff.mpr h
  have hword : ∀ offset, (echo reply oldest)[2 + operator.ghost_indexes.length + 4 * ghost.1 + offset]? =
      reply[2 + operator.ghost_indexes.length + 4 * ghost.1 + offset]? := by
    intro offset
    exact Vector.getElem?_set_ne _ (by omega)
  unfold counters_of counters_at
  simp only [hword]

/-! ### Runs -/

/-- One scheduling of a run: its exchanges, what it reports, and the wrapper it leaves. -/
structure Scheduled where
  exchanges : List (Exchange Fifo)
  reported : Bool
  operator : FpgaOperator Fifo

/-- A run of schedulings, with any messages and any progress from the parent. -/
inductive WrapperRun (decisions : ℕ → Option Frame) : FpgaOperator Fifo → List Scheduled → Prop
  | nil (operator : FpgaOperator Fifo) : WrapperRun decisions operator []
  | cons {operator : FpgaOperator Fifo} {progress : SharedProgress Time}
      {messages : List (Message Time Word)} {start last : Scheduling Fifo}
      {exchanges : List (Exchange Fifo)} {outcome : Bool × FpgaOperator Fifo × SharedProgress Time}
      {rest : List Scheduled} :
      ShapedFor operator progress → prepare operator progress = some start →
      Serves (fifo decisions) start exchanges last →
      exchanges.map Exchange.request = requests messages →
      raw_logic (fifo decisions) operator progress messages = some outcome →
      WrapperRun decisions outcome.2.1 rest →
      WrapperRun decisions operator (⟨exchanges, outcome.1, outcome.2.1⟩ :: rest)

/-- The consumed and produced counts of a reply are recorded at the given time. -/
def RecordedAt (time : Time) (operator : FpgaOperator Fifo) (output : Frame)
    (before after : SharedProgress Time) : Prop :=
  ∀ ghost ∈ operator.ghost_indexes, ∀ other,
    ghost_value after.wrapper_consumeds ghost.2 other =
        ghost_value before.wrapper_consumeds ghost.2 other +
          at_time time (counters_of operator output ghost).consumed other ∧
      ghost_value after.wrapper_produceds ghost.2 other =
        ghost_value before.wrapper_produceds ghost.2 other +
          at_time time (counters_of operator output ghost).produced other

/-- A reply in this exchange is credited at the time of the frame that it answers. -/
def Exchange.Credited (decisions : ℕ → Option Frame) (exchange : Exchange Fifo) : Prop :=
  ∀ output, (answer (fifo decisions) exchange.state exchange.request).1 = some output →
    RecordedAt (time_word exchange.answered).toFin exchange.state.operator output exchange.state.progress
      exchange.after.progress

/-- Every reply is credited at the time of the frame it answers, and where a frame is not answered
    yet at the end of a scheduling the wrapper reports itself incomplete. -/
structure CreditedInTime (decisions : ℕ → Option Frame) (schedulings : List Scheduled) : Prop where
  credited : ∀ scheduled ∈ schedulings, ∀ exchange ∈ scheduled.exchanges,
    exchange.Credited decisions
  incomplete : ∀ scheduled ∈ schedulings,
    scheduled.operator.n_sent ≠ scheduled.operator.n_received → scheduled.reported = true

/-- The time of the first request of a scheduling: zero where there is no message. -/
def Scheduled.time (scheduled : Scheduled) : Time :=
  match scheduled.exchanges.head?.bind Exchange.request with
  | some message => message.time
  | none => 0

/-- The device answers at once.  Without records, the message has the time of the scheduling or
    nothing was consumed and produced; with records nothing was consumed, only the last ghost
    produced, and holds its capability at that time. -/
def Prompt (decisions : ℕ → Option Frame) (scheduled : Scheduled) (exchange : Exchange Fifo) : Prop :=
  ∃ reply, decisions exchange.state.operator.hc.asked = some reply ∧
    ∀ ghost ∈ exchange.state.operator.ghost_indexes,
      let counter := counters_of exchange.state.operator reply ghost
      if decode reply = [] then
        ∀ message, exchange.request = some message → message.time ≠ scheduled.time →
          counter.consumed = 0 ∧ counter.produced = 0
      else
        counter.consumed = 0 ∧
          (counter.produced = 0 ∨ exchange.state.operator.ghost_indexes.getLast? = some ghost ∧
            counter.internal_time = scheduled.time)

/-! ### One exchange -/

/-- Counts at two times agree where the times do, or there is nothing to count. -/
theorem at_time_eq_iff {first second : Time} {count : ℤ} :
    (∀ other, at_time first count other = at_time second count other) ↔ first = second ∨ count = 0 := by
  constructor
  · intro h
    by_contra hne
    obtain ⟨htimes, hcount⟩ := not_or.mp hne
    have hat := h first
    rw [at_time, at_time, if_pos rfl, if_neg (Ne.symm htimes)] at hat
    exact hcount hat
  · rintro (rfl | rfl)
    · exact fun _ => rfl
    · intro other
      rw [at_time, at_time, ite_self, ite_self]

theorem at_time_eq_zero_iff {time : Time} {count : ℤ} :
    (∀ other, (0 : Time → ℤ) other = at_time time count other) ↔ count = 0 := by
  constructor
  · intro h
    have hat := h time
    rw [at_time, if_pos rfl] at hat
    exact hat.symm
  · rintro rfl other
    rw [at_time, ite_self]
    rfl

/-- What is recorded of a ghost is what was added for it. -/
theorem Adds.recorded_iff {before after : SharedProgress Time} {ghost : ℕ}
    {consumed produced internal : Time → ℤ} (h : Adds before after ghost consumed produced internal)
    (consumed' produced' : Time → ℤ) :
    (∀ other, ghost_value after.wrapper_consumeds ghost other =
          ghost_value before.wrapper_consumeds ghost other + consumed' other ∧
        ghost_value after.wrapper_produceds ghost other =
          ghost_value before.wrapper_produceds ghost other + produced' other) ↔
      (∀ other, consumed other = consumed' other) ∧ ∀ other, produced other = produced' other := by
  constructor
  · intro hrecorded
    constructor
    · intro other
      have hconsumed := (h.consumed other).symm.trans (hrecorded other).1
      omega
    · intro other
      have hproduced := (h.produced other).symm.trans (hrecorded other).2
      omega
  · rintro ⟨hconsumed, hproduced⟩ other
    rw [h.consumed, h.produced, hconsumed, hproduced]
    exact ⟨rfl, rfl⟩

theorem answer_fifo_some {exchange : Exchange Fifo} {reply : Frame}
    (h : decisions exchange.state.operator.hc.asked = some reply) :
    answer (fifo decisions) exchange.state exchange.request =
      (some (echo reply exchange.answered),
        ⟨(exchange.state.operator.hc.pending ++ [exchange.frame]).tail,
          exchange.state.operator.hc.asked + 1⟩) :=
  fifo_some h exchange.frame

theorem answer_fifo_none {exchange : Exchange Fifo}
    (h : decisions exchange.state.operator.hc.asked = none) :
    answer (fifo decisions) exchange.state exchange.request =
      (none, ⟨exchange.state.operator.hc.pending ++ [exchange.frame],
        exchange.state.operator.hc.asked + 1⟩) :=
  fifo_none h exchange.frame

/-- Where the frame answered has the time of the scheduling, a reply is credited at it exactly
    when the condition on its counters holds. -/
theorem Exchange.credited_iff {exchange : Exchange Fifo} {scheduled : Scheduled} {reply : Frame}
    (hexchanged : Exchanged (fifo decisions) exchange.state exchange.request exchange.after)
    (hghosts : exchange.state.operator.ghost_indexes ≠ [])
    (hreply : decisions exchange.state.operator.hc.asked = some reply)
    (htime : (time_word exchange.answered).toFin = scheduled.time) :
    exchange.Credited decisions ↔ Prompt decisions scheduled exchange := by
  have hanswer := answer_fifo_some hreply
  have hoperator := hexchanged.replied (echo reply exchange.answered) (by rw [hanswer])
  have hcredited : exchange.Credited decisions ↔
      RecordedAt scheduled.time exchange.state.operator (echo reply exchange.answered)
        exchange.state.progress exchange.after.progress := by
    unfold Credited
    rw [hanswer, htime]
    exact ⟨fun h => h _ rfl, fun h output houtput => Option.some.inj houtput ▸ h⟩
  have hprompt : Prompt decisions scheduled exchange ↔
      ∀ ghost ∈ exchange.state.operator.ghost_indexes,
        let counter := counters_of exchange.state.operator reply ghost
        if decode reply = [] then
          ∀ message, exchange.request = some message → message.time ≠ scheduled.time →
            counter.consumed = 0 ∧ counter.produced = 0
        else
          counter.consumed = 0 ∧
            (counter.produced = 0 ∨ exchange.state.operator.ghost_indexes.getLast? = some ghost ∧
              counter.internal_time = scheduled.time) := by
    unfold Prompt
    constructor
    · rintro ⟨other, hother, h⟩
      obtain rfl := Option.some.inj (hreply.symm.trans hother)
      exact h
    · exact fun h => ⟨reply, hreply, h⟩
  rw [hcredited, hprompt]
  refine forall₂_congr fun ghost hghost => ?_
  have hadds := hoperator ghost hghost
  simp only [counters_of_echo hghosts, decode_echo] at hadds ⊢
  by_cases hrecords : decode reply = []
  · rw [if_pos hrecords] at hadds ⊢
    rw [hadds.recorded_iff, at_time_eq_iff, at_time_eq_iff]
    cases hrequest : exchange.request with
    | none =>
      -- Without a message the time is the one in the reply.
      have hsame : credit_time (echo reply exchange.answered) none = scheduled.time := by
        rw [← htime]
        exact congrArg BitVec.toFin (time_word_echo reply exchange.answered)
      simp [hsame]
    | some message =>
      constructor
      · rintro ⟨hconsumed, hproduced⟩ other hother hne
        obtain rfl := Option.some.inj hother
        exact ⟨hconsumed.resolve_left hne, hproduced.resolve_left hne⟩
      · intro h
        by_cases hsame : message.time = scheduled.time
        · exact ⟨Or.inl hsame, Or.inl hsame⟩
        · obtain ⟨hconsumed, hproduced⟩ := h message rfl hsame
          exact ⟨Or.inr hconsumed, Or.inr hproduced⟩
  · rw [if_neg hrecords] at hadds ⊢
    by_cases hlast : exchange.state.operator.ghost_indexes.getLast? = some ghost
    · rw [if_pos hlast] at hadds
      rw [hadds.recorded_iff, at_time_eq_zero_iff, at_time_eq_iff, or_comm]
      simp only [hlast, true_and]
    · rw [if_neg hlast] at hadds
      rw [hadds.recorded_iff, at_time_eq_zero_iff, at_time_eq_zero_iff]
      simp only [hlast, false_and, or_false]

/-! ### Frames that wait for a reply -/

/-- The frames sent but not received are those that the device has not answered. -/
def Counted (operator : FpgaOperator Fifo) : Prop :=
  operator.n_sent = operator.n_received + operator.hc.pending.length

theorem Exchanged.counted (exchange : Exchange Fifo)
    (h : Exchanged (fifo decisions) exchange.state exchange.request exchange.after)
    (hcounted : Counted exchange.state.operator) : Counted exchange.after.operator := by
  unfold Counted at *
  rw [h.n_sent, h.n_received, h.hc]
  cases hdecision : decisions exchange.state.operator.hc.asked with
  | none =>
    rw [answer_fifo_none hdecision]
    simp
    omega
  | some reply =>
    rw [answer_fifo_some hdecision]
    simp
    omega

/-- A frame that waits keeps one waiting, and only prompt answers leave none. -/
theorem Exchanged.pending_eq_nil_iff (exchange : Exchange Fifo)
    (h : Exchanged (fifo decisions) exchange.state exchange.request exchange.after) :
    exchange.after.operator.hc.pending = [] ↔
      exchange.state.operator.hc.pending = [] ∧
        ∃ reply, decisions exchange.state.operator.hc.asked = some reply := by
  rw [h.hc]
  cases hdecision : decisions exchange.state.operator.hc.asked with
  | none =>
    rw [answer_fifo_none hdecision]
    simp
  | some reply =>
    rw [answer_fifo_some hdecision]
    cases exchange.state.operator.hc.pending with
    | nil => simp
    | cons frame pending => simp

/-- No frame waits at the end of a scheduling exactly when none did at its start, and every one
    is answered at once. -/
theorem Serves.pending_eq_nil_iff {start last : Scheduling Fifo} {exchanges : List (Exchange Fifo)}
    (h : Serves (fifo decisions) start exchanges last) (hready : Ready start) :
    last.operator.hc.pending = [] ↔
      start.operator.hc.pending = [] ∧ ∀ exchange ∈ exchanges,
        ∃ reply, decisions exchange.state.operator.hc.asked = some reply := by
  induction h with
  | nil => simp
  | @cons state after last request exchanges hon hrest ih =>
    have hexchanged := exchanged_of_on_request hready hon
    rw [ih hexchanged.ready, List.forall_mem_cons,
      Exchanged.pending_eq_nil_iff ⟨state, request, after⟩ hexchanged, and_assoc]

/-- Then none waits at any time in between. -/
theorem Serves.pending_eq_nil {start last : Scheduling Fifo} {exchanges : List (Exchange Fifo)}
    (h : Serves (fifo decisions) start exchanges last) (hready : Ready start)
    (hlast : last.operator.hc.pending = []) :
    ∀ exchange ∈ exchanges, exchange.state.operator.hc.pending = [] := by
  induction h with
  | nil => exact fun _ hmem => absurd hmem List.not_mem_nil
  | @cons state after last request exchanges hon hrest ih =>
    have hstart := ((Serves.cons hon hrest).pending_eq_nil_iff hready).mp hlast
    intro exchange hexchange
    rcases List.mem_cons.mp hexchange with rfl | hexchange
    · exact hstart.1
    · exact ih (exchanged_of_on_request hready hon).ready hlast exchange hexchange

theorem Serves.counted {start last : Scheduling Fifo} {exchanges : List (Exchange Fifo)}
    (h : Serves (fifo decisions) start exchanges last) (hready : Ready start)
    (hcounted : Counted start.operator) : Counted last.operator := by
  induction h with
  | nil => exact hcounted
  | @cons state after last request exchanges hon _ ih =>
    have hexchanged := exchanged_of_on_request hready hon
    exact ih hexchanged.ready (Exchanged.counted ⟨state, request, after⟩ hexchanged hcounted)

/-! ### When replies are credited in time -/

theorem Serves.foldlM_eq {start last : Scheduling Fifo} {exchanges : List (Exchange Fifo)}
    (h : Serves (fifo decisions) start exchanges last) :
    (exchanges.map Exchange.request).foldlM (Fpga.on_request (fifo decisions)) start = some last := by
  induction h with
  | nil => rfl
  | cons hon _ ih =>
    rw [List.map_cons, List.foldlM_cons, hon]
    exact ih

/-- The wrapper never reports itself incomplete. -/
theorem raw_logic_outcome {operator : FpgaOperator Fifo} {progress : SharedProgress Time}
    {messages : List (Message Time Word)} {start last : Scheduling Fifo}
    {exchanges : List (Exchange Fifo)} {outcome : Bool × FpgaOperator Fifo × SharedProgress Time}
    (hstart : prepare operator progress = some start)
    (hserves : Serves (fifo decisions) start exchanges last)
    (hrequests : exchanges.map Exchange.request = requests messages)
    (h : raw_logic (fifo decisions) operator progress messages = some outcome) :
    outcome.1 = false ∧
      outcome.2.1 = { last.operator with output_wrapper := last.operator.output_wrapper.cease } := by
  rw [raw_logic_eq, hstart, Option.bind_some, ← hrequests, hserves.foldlM_eq, Option.map_some] at h
  obtain rfl := Option.some.inj h
  exact ⟨rfl, rfl⟩

theorem time_read_frame (operator : FpgaOperator Fifo) (request : Option (Message Time Word)) :
    (time_word (read_frame (request_words operator request))).toFin =
      match request with
      | some message => message.time
      | none => 0 := by
  cases request with
  | some message => exact read_frame_time operator message
  | none =>
    have hword : (request_words operator none)[1]? = some 0 := rfl
    rw [time_word_read_frame hword]
    rfl

/-- While no frame waits, the frame answered is the frame sent, with the time of the scheduling. -/
theorem Serves.time_answered {start last : Scheduling Fifo} {scheduled : Scheduled}
    (h : Serves (fifo decisions) start scheduled.exchanges last) (hready : Ready start)
    (hempty : start.input_vector = []) {exchange : Exchange Fifo}
    (hmem : exchange ∈ scheduled.exchanges) (hpending : exchange.state.operator.hc.pending = []) :
    (time_word exchange.answered).toFin = scheduled.time := by
  have hanswered : exchange.answered = exchange.frame := by
    unfold Exchange.answered
    simp [hpending]
  rw [hanswered]
  unfold Scheduled.time
  match hexchanges : scheduled.exchanges with
  | [] =>
    rw [hexchanges] at hmem
    exact absurd hmem List.not_mem_nil
  | first :: rest =>
    rw [hexchanges] at h hmem
    rw [h.frame_eq hready hempty exchange hmem, time_read_frame]
    rfl

/-- In one scheduling that starts without waiting frames, the replies are credited and the wrapper
    reports what it should exactly where every exchange is prompt. -/
theorem Serves.credited_iff (scheduled : Scheduled) {start last : Scheduling Fifo}
    (h : Serves (fifo decisions) start scheduled.exchanges last) (hready : Ready start)
    (hempty : start.input_vector = []) (hpending : start.operator.hc.pending = []) :
    ((∀ exchange ∈ scheduled.exchanges, exchange.Credited decisions) ∧
        last.operator.hc.pending = []) ↔
      ∀ exchange ∈ scheduled.exchanges, Prompt decisions scheduled exchange := by
  have hone : last.operator.hc.pending = [] → ∀ exchange ∈ scheduled.exchanges,
      (exchange.Credited decisions ↔ Prompt decisions scheduled exchange) := by
    intro hlast exchange hmem
    obtain ⟨_, hexchanged⟩ := h.exchanged hready exchange hmem
    obtain ⟨reply, hreply⟩ := ((h.pending_eq_nil_iff hready).mp hlast).2 exchange hmem
    have hghosts : exchange.state.operator.ghost_indexes ≠ [] := by
      intro hnone
      have hon := h.on_request exchange hmem
      rw [on_request_eq_none_of_no_ghosts hnone] at hon
      cases hon
    exact Exchange.credited_iff hexchanged hghosts hreply
      (h.time_answered hready hempty hmem (h.pending_eq_nil hready hlast exchange hmem))
  constructor
  · rintro ⟨hcredited, hlast⟩ exchange hmem
    exact (hone hlast exchange hmem).mp (hcredited exchange hmem)
  · intro hprompt
    have hlast : last.operator.hc.pending = [] := by
      refine (h.pending_eq_nil_iff hready).mpr ⟨hpending, fun exchange hmem => ?_⟩
      obtain ⟨reply, hreply, _⟩ := hprompt exchange hmem
      exact ⟨reply, hreply⟩
    exact ⟨fun exchange hmem => (hone hlast exchange hmem).mpr (hprompt exchange hmem), hlast⟩

/-- The same over runs, from any wrapper whose frames are all answered. -/
theorem WrapperRun.credited_iff {operator : FpgaOperator Fifo} {schedulings : List Scheduled}
    (h : WrapperRun decisions operator schedulings) (hcounted : Counted operator)
    (hpending : operator.hc.pending = []) :
    CreditedInTime decisions schedulings ↔
      ∀ scheduled ∈ schedulings, ∀ exchange ∈ scheduled.exchanges,
        Prompt decisions scheduled exchange := by
  induction h with
  | nil =>
    constructor
    · exact fun _ _ hmem => absurd hmem List.not_mem_nil
    · intro _
      constructor <;> exact fun _ hmem => absurd hmem List.not_mem_nil
  | @cons operator progress messages start last exchanges outcome rest hshaped hstart hserves
      hrequests hlogic hrest ih =>
    obtain ⟨other, hother, hprepared⟩ := exists_prepared hshaped
    obtain rfl := Option.some.inj (hstart.symm.trans hother)
    obtain ⟨hreported, hoperator⟩ := raw_logic_outcome hstart hserves hrequests hlogic
    have hcountedStart : Counted start.operator := by
      unfold Counted
      rw [hprepared.prepares.n_sent, hprepared.prepares.n_received, hprepared.prepares.hc]
      exact hcounted
    have hcountedAfter : Counted outcome.2.1 := by
      rw [hoperator]
      exact hserves.counted hprepared.ready hcountedStart
    have hpendingAfter : outcome.2.1.hc.pending = [] ↔ last.operator.hc.pending = [] := by
      rw [hoperator]
    have hone := Serves.credited_iff ⟨exchanges, outcome.1, outcome.2.1⟩ hserves hprepared.ready
      hprepared.input_vector (by rw [hprepared.prepares.hc]; exact hpending)
    rw [List.forall_mem_cons, ← hone]
    constructor
    · intro hcredited
      have hlast : last.operator.hc.pending = [] := by
        by_contra hwaits
        have hdiffer : outcome.2.1.n_sent ≠ outcome.2.1.n_received := by
          intro hsame
          have hlength := hcountedAfter
          unfold Counted at hlength
          rw [← hpendingAfter, ← List.length_eq_zero_iff] at hwaits
          omega
        have htrue := hcredited.incomplete _ (List.mem_cons_self ..) hdiffer
        rw [hreported] at htrue
        cases htrue
      refine ⟨⟨hcredited.credited _ (List.mem_cons_self ..), hlast⟩, ?_⟩
      refine (ih hcountedAfter (hpendingAfter.mpr hlast)).mp ⟨?_, ?_⟩
      · exact fun scheduled hmem => hcredited.credited scheduled (List.mem_cons_of_mem _ hmem)
      · exact fun scheduled hmem => hcredited.incomplete scheduled (List.mem_cons_of_mem _ hmem)
    · rintro ⟨⟨hcredited, hlast⟩, hprompt⟩
      have hrestCredited := (ih hcountedAfter (hpendingAfter.mpr hlast)).mpr hprompt
      constructor
      · intro scheduled hmem
        rcases List.mem_cons.mp hmem with rfl | hmem
        · exact hcredited
        · exact hrestCredited.credited scheduled hmem
      · intro scheduled hmem
        rcases List.mem_cons.mp hmem with rfl | hmem
        · intro hdiffer
          exfalso
          apply hdiffer
          have hlength := hcountedAfter
          unfold Counted at hlength
          rw [hpendingAfter.mpr hlast] at hlength
          exact hlength
        · exact hrestCredited.incomplete scheduled hmem

theorem Serves.ghost_indexes {start last : Scheduling Fifo} {exchanges : List (Exchange Fifo)}
    (h : Serves (fifo decisions) start exchanges last) (hready : Ready start) :
    last.operator.ghost_indexes = start.operator.ghost_indexes := by
  induction h with
  | nil => rfl
  | cons hon _ ih =>
    have hexchanged := exchanged_of_on_request hready hon
    exact (ih hexchanged.ready).trans hexchanged.ghost_indexes

/-- With one to six ghosts there is a run for every sequence of schedulings. -/
theorem exists_wrapperRun (decisions : ℕ → Option Frame) (operator : FpgaOperator Fifo)
    (visits : List (SharedProgress Time × List (Message Time Word)))
    (hghosts : operator.ghost_indexes ≠ []) (hfew : operator.ghost_indexes.length ≤ 6)
    (hshaped : ∀ visit ∈ visits, ShapedFor operator visit.1) :
    ∃ schedulings, WrapperRun decisions operator schedulings ∧
      schedulings.map (fun scheduled => scheduled.exchanges.map Exchange.request) =
        visits.map fun visit => requests visit.2 := by
  induction visits generalizing operator with
  | nil => exact ⟨[], WrapperRun.nil operator, rfl⟩
  | cons visit visits ih =>
    obtain ⟨progress, messages⟩ := visit
    have hfirst : ShapedFor operator progress := hshaped _ (List.mem_cons_self ..)
    obtain ⟨start, exchanges, last, hstart, hprepared, hserves, hrequests, hlogic⟩ :=
      exists_scheduled (fifo decisions) hfirst hghosts hfew messages
    have hsame : last.operator.ghost_indexes = operator.ghost_indexes :=
      (hserves.ghost_indexes hprepared.ready).trans hprepared.prepares.ghost_indexes
    have hlater : ∀ visit ∈ visits, ShapedFor
        { last.operator with output_wrapper := last.operator.output_wrapper.cease } visit.1 := by
      intro visit hvisit ghost hghost
      exact hshaped visit (List.mem_cons_of_mem _ hvisit) ghost (hsame ▸ hghost)
    obtain ⟨schedulings, hrun, hvisits⟩ := ih
      { last.operator with output_wrapper := last.operator.output_wrapper.cease }
      (hsame ▸ hghosts) (hsame ▸ hfew) hlater
    refine ⟨_, WrapperRun.cons hfirst hstart hserves hrequests hlogic hrun, ?_⟩
    rw [List.map_cons, List.map_cons, hvisits]
    exact congrArg (· :: _) hrequests

/-- On a device that answers in order, after any delays, the counts of every reply are recorded at
    the time of the frame it answers, and the wrapper is reported incomplete while frames wait,
    exactly in the runs in which each frame is answered at once, each message whose reply has
    counts but no records has the time of the first message of its scheduling, and replies with
    records count only what the last ghost produced at that time. -/
theorem replies_credited_iff {ghosts : List ℕ} (hdistinct : ghosts.Nodup)
    {schedulings : List Scheduled}
    (h : WrapperRun decisions (FpgaOperator.new ghosts hdistinct ⟨[], 0⟩) schedulings) :
    CreditedInTime decisions schedulings ↔
      ∀ scheduled ∈ schedulings, ∀ exchange ∈ scheduled.exchanges,
        Prompt decisions scheduled exchange :=
  h.credited_iff rfl rfl

/-- The reply to the message at time 3 comes with the message at time 4. -/
def late_decisions (asked : ℕ) : Option Frame := if asked = 1 then some (example_reply 0) else none

/-- A frame is not answered when its scheduling ends, and the reply is credited in the next. -/
theorem late_reply_not_in_time :
    ∃ schedulings, WrapperRun late_decisions (example_operator ⟨[], 0⟩) schedulings ∧
      schedulings.map (fun scheduled => scheduled.exchanges.map Exchange.request) =
        [[some ⟨3, [5]⟩], [some ⟨4, [6]⟩]] ∧
      ¬ CreditedInTime late_decisions schedulings := by
  obtain ⟨schedulings, hrun, hvisits⟩ := exists_wrapperRun late_decisions (example_operator ⟨[], 0⟩)
    [(example_progress, [⟨3, [5]⟩]), (example_progress, [⟨4, [6]⟩])] (by decide) (by decide)
    (by simp [example_shaped])
  refine ⟨schedulings, hrun, hvisits, fun hcredited => ?_⟩
  have hprompt := (hrun.credited_iff rfl rfl).mp hcredited
  cases hrun with
  | nil => cases hvisits
  | cons hshaped hstart hserves _ _ _ =>
    cases hserves with
    | nil => cases hvisits
    | cons _ _ =>
      obtain ⟨reply, hreply, _⟩ := hprompt _ (List.mem_cons_self ..) _ (List.mem_cons_self ..)
      obtain ⟨other, hother, hprepared⟩ := exists_prepared hshaped
      obtain rfl := Option.some.inj (hstart.symm.trans hother)
      have hasked := congrArg Fifo.asked hprepared.prepares.hc
      dsimp only at hreply
      rw [hasked] at hreply
      cases hreply

theorem replies_credited_iff_example :
    ∃ schedulings, WrapperRun (fun _ => some (example_reply 0)) (example_operator ⟨[], 0⟩) schedulings ∧
      schedulings.map (fun scheduled => scheduled.exchanges.map Exchange.request) =
        [[some ⟨3, [5]⟩]] ∧
      CreditedInTime (fun _ => some (example_reply 0)) schedulings := by
  obtain ⟨schedulings, hrun, hvisits⟩ := exists_wrapperRun (fun _ => some (example_reply 0))
    (example_operator ⟨[], 0⟩) [(example_progress, [⟨3, [5]⟩])] (by decide) (by decide)
    (by simp [example_shaped])
  refine ⟨schedulings, hrun, hvisits, (replies_credited_iff (by decide) hrun).mpr ?_⟩
  obtain ⟨only, rfl, hexchanges⟩ := List.map_eq_singleton_iff.mp hvisits
  obtain ⟨single, hsingle, hrequest⟩ := List.map_eq_singleton_iff.mp hexchanges
  intro scheduled hscheduled exchange hexchange
  obtain rfl := List.mem_singleton.mp hscheduled
  rw [hsingle] at hexchange
  obtain rfl := List.mem_singleton.mp hexchange
  have hempty : decode (example_reply 0) = [] := by decide
  refine ⟨example_reply 0, rfl, fun ghost _ => ?_⟩
  rw [if_pos hempty]
  intro message hmessage hlate
  exfalso
  apply hlate
  unfold Scheduled.time
  rw [hsingle]
  simp [hmessage]

end Timely.Fpga
