/-
  Timely/Exchange.lean
  ====================
  **Distributing records among workers**
  (`timely/src/dataflow/channels/pushers/exchange.rs` and `tee.rs`).

  An exchange pusher keeps a buffer for each target worker, and pushes it when
  it is full, when the time changes, or when it is told to flush.  A record that
  has been pushed at the exchange has been handed to its target, or is held in a
  buffer; flushing leaves none in the buffers.
-/
import Timely.Pushers

set_option linter.unusedSectionVars false

namespace Timely

open Library

/-- Distributes records among the pushers of the workers according to a distribution function.
    A pusher is what has been pushed at it. -/
structure Exchange (T D : Type) where
  pushers : List (List (Option (Message T D)))
  buffers : List (List D)
  current : Option T
  hash_func : T → D → ℕ

namespace Exchange

variable {T D : Type}

/-- Allocates a new exchange for a number of workers. -/
def new (workers : ℕ) (key : T → D → ℕ) : Exchange T D where
  pushers := List.replicate workers []
  buffers := List.replicate workers []
  current := none
  hash_func := key

/-- Push at the pusher of one worker. -/
def push_at (exchange : Exchange T D) (index : ℕ) (message : Option (Message T D)) : Exchange T D :=
  { exchange with pushers := exchange.pushers.modify index fun pushed => pushed ++ [message] }

/-- Push the buffer of one worker as a message at the current time. -/
def flush (exchange : Exchange T D) (index : ℕ) : Exchange T D :=
  match exchange.buffers[index]?, exchange.current with
  | some buffer, some time =>
    if buffer.isEmpty then exchange
    else
      { exchange.push_at index (some ⟨time, buffer⟩) with buffers := exchange.buffers.set index [] }
  | _, _ => exchange

def flush_all (exchange : Exchange T D) : Exchange T D :=
  (List.range exchange.pushers.length).foldl flush exchange

/-- The worker for a record: a mask if the number of workers is a power of two, else the
    remainder. -/
def target (exchange : Exchange T D) (time : T) (datum : D) : ℕ :=
  let workers := exchange.pushers.length
  if workers &&& (workers - 1) = 0 then exchange.hash_func time datum &&& (workers - 1)
  else exchange.hash_func time datum % workers

/-- Buffer a record, whose time is the current one, for its worker. -/
def push_datum (time : T) (exchange : Exchange T D) (datum : D) : Exchange T D :=
  let index := exchange.target time datum
  let pushed :=
    { exchange with
      current := some time
      buffers := exchange.buffers.modify index fun buffer => buffer ++ [datum] }
  if (pushed.buffers[index]?).map List.length = some default_length then pushed.flush index else pushed

/-- Push a message, or `none` to flush. -/
def push [DecidableEq T] (exchange : Exchange T D) (message : Option (Message T D)) : Exchange T D :=
  -- if only one pusher, no exchange
  if exchange.pushers.length = 1 then exchange.push_at 0 message
  else
    match message with
    | some message =>
      let timed :=
        if exchange.current.any fun time => time ≠ message.time then exchange.flush_all else exchange
      message.data.foldl (push_datum message.time) { timed with current := some message.time }
    | none =>
      (List.range exchange.pushers.length).foldl
        (fun exchange index => (exchange.flush index).push_at index none) exchange

/-! ### Where records are -/

/-- The records handed to the pusher of a worker. -/
def handed (exchange : Exchange T D) (index : ℕ) : List (T × D) :=
  (((exchange.pushers[index]?).getD []).filterMap id).flatMap Message.records

/-- The records held in the buffer of a worker. -/
def held (exchange : Exchange T D) (index : ℕ) : List (T × D) :=
  match exchange.current with
  | none => []
  | some time => ((exchange.buffers[index]?).getD []).map fun datum => (time, datum)

/-- The worker of a record. -/
def worker (exchange : Exchange T D) (record : T × D) : ℕ := exchange.target record.1 record.2

/-- At least two workers, a buffer for each, and nothing in the buffers before the first message. -/
structure Distributes (exchange : Exchange T D) : Prop where
  many : 2 ≤ exchange.pushers.length
  lengths : exchange.buffers.length = exchange.pushers.length
  idle : exchange.current = none → ∀ buffer ∈ exchange.buffers, buffer = []

/-- Nothing is held. -/
def Flushed (exchange : Exchange T D) : Prop := ∀ buffer ∈ exchange.buffers, buffer = []

theorem Distributes.flushed_iff {exchange : Exchange T D} (h : exchange.Distributes) :
    exchange.Flushed ↔ ∀ index, exchange.held index = [] := by
  unfold Flushed held
  cases hcurrent : exchange.current with
  | none => exact ⟨fun _ _ => rfl, fun _ => h.idle hcurrent⟩
  | some time =>
    simp only [List.map_eq_nil_iff]
    constructor
    · intro hflushed index
      cases hbuffer : exchange.buffers[index]? with
      | none => rfl
      | some buffer => exact hflushed buffer (List.mem_of_getElem? hbuffer)
    · intro hheld buffer hbuffer
      obtain ⟨index, hindex⟩ := List.mem_iff_getElem?.mp hbuffer
      have hempty := hheld index
      rwa [hindex] at hempty

/-- What pushing records does: each is added to those of its worker, handed or held. -/
structure Pushed (exchange : Exchange T D) (records : List (T × D)) (after : Exchange T D) : Prop where
  distributes : after.Distributes
  worker : after.worker = exchange.worker
  length : after.pushers.length = exchange.pushers.length
  records : ∀ index, after.handed index ++ after.held index =
    exchange.handed index ++ exchange.held index ++
      records.filter fun record => exchange.worker record = index

theorem Distributes.pushed {exchange : Exchange T D} (h : exchange.Distributes) :
    Pushed exchange [] exchange :=
  ⟨h, rfl, rfl, fun index => by rw [List.filter_nil, List.append_nil]⟩

theorem Pushed.trans {first second third : Exchange T D} {records more : List (T × D)}
    (h : Pushed first records second) (h' : Pushed second more third) :
    Pushed first (records ++ more) third := by
  refine ⟨h'.distributes, h'.worker.trans h.worker, h'.length.trans h.length, fun index => ?_⟩
  rw [h'.records, h.records, h.worker, List.filter_append, List.append_assoc]

theorem worker_congr {exchange after : Exchange T D} (hlength : after.pushers.length = exchange.pushers.length)
    (hhash : after.hash_func = exchange.hash_func) : after.worker = exchange.worker := by
  funext record
  unfold worker target
  rw [hlength, hhash]

theorem Distributes.worker_lt {exchange : Exchange T D} (h : exchange.Distributes) (record : T × D) :
    exchange.worker record < exchange.buffers.length := by
  have hmany := h.many
  rw [h.lengths]
  unfold worker target
  dsimp only
  split
  · exact (Nat.and_le_right).trans_lt (by omega)
  · exact Nat.mod_lt _ (by omega)

theorem handed_push_at {exchange : Exchange T D} {index : ℕ} (hindex : index < exchange.pushers.length)
    (message : Option (Message T D)) (other : ℕ) :
    (exchange.push_at index message).handed other =
      exchange.handed other ++ if other = index then message.elim [] Message.records else [] := by
  unfold handed push_at
  by_cases hother : other = index
  · subst hother
    rw [List.getElem?_modify_eq, List.getElem?_eq_getElem hindex, if_pos rfl]
    cases message with
    | none => simp
    | some message => simp
  · rw [List.getElem?_modify_ne _ _ (Ne.symm hother), if_neg hother, List.append_nil]

/-! ### Flushing -/

/-- The records held for one worker have been handed to it, and no others have been added. -/
structure Clears (exchange : Exchange T D) (index : ℕ) (after : Exchange T D) : Prop where
  pushed : Pushed exchange [] after
  current : after.current = exchange.current
  cleared : after.held index = []
  kept : ∀ other, exchange.held other = [] → after.held other = []

theorem Distributes.clears_flush {exchange : Exchange T D} (h : exchange.Distributes) (index : ℕ) :
    Clears exchange index (exchange.flush index) := by
  unfold flush
  split
  case h_1 buffer time hbuffer hcurrent =>
    have hheld : exchange.held index = buffer.map fun datum => (time, datum) := by
      unfold held
      rw [hcurrent, hbuffer]
      rfl
    split
    case isTrue hempty =>
      refine ⟨h.pushed, rfl, ?_, fun _ hother => hother⟩
      rw [hheld, List.isEmpty_iff.mp hempty, List.map_nil]
    case isFalse =>
      have hindex : index < exchange.pushers.length :=
        (List.getElem?_eq_some_iff.mp hbuffer).1.trans_eq h.lengths
      have hafter : ∀ other, held
          { exchange.push_at index (some ⟨time, buffer⟩) with buffers := exchange.buffers.set index [] } other =
            if other = index then [] else exchange.held other := by
        intro other
        unfold held push_at
        rw [hcurrent]
        by_cases hother : other = index
        · subst hother
          simp [List.getElem?_set_self (List.getElem?_eq_some_iff.mp hbuffer).1]
        · simp [List.getElem?_set_ne (Ne.symm hother), hother]
      refine ⟨⟨⟨?_, ?_, ?_⟩, ?_, ?_, ?_⟩, rfl, ?_, ?_⟩
      · exact h.many.trans_eq (List.length_modify _ _ _).symm
      · exact (List.length_set).trans (h.lengths.trans (List.length_modify _ _ _).symm)
      · intro hnone
        exact absurd (hcurrent.symm.trans hnone) (Option.some_ne_none time)
      · exact worker_congr (List.length_modify _ _ _) rfl
      · exact List.length_modify _ _ _
      · intro other
        rw [hafter]
        change (exchange.push_at index (some ⟨time, buffer⟩)).handed other ++ _ = _
        rw [handed_push_at hindex, List.filter_nil, List.append_nil]
        by_cases hother : other = index
        · rw [if_pos hother, if_pos hother, List.append_nil, hother, hheld]
          rfl
        · rw [if_neg hother, if_neg hother, List.append_nil]
      · rw [hafter, if_pos rfl]
      · intro other hother
        rw [hafter, hother, ite_self]
  case h_2 hnone =>
    refine ⟨h.pushed, rfl, ?_, fun _ hother => hother⟩
    unfold held
    cases hcurrent : exchange.current with
    | none => rfl
    | some time =>
      cases hbuffer : exchange.buffers[index]? with
      | none => rfl
      | some buffer => exact absurd hcurrent (hnone buffer time hbuffer)

/-- Telling a worker to flush changes nothing about records. -/
theorem Clears.push_none {exchange after : Exchange T D} {index : ℕ} (h : Clears exchange index after)
    (hindex : index < exchange.pushers.length) : Clears exchange index (after.push_at index none) := by
  have hpushed := h.pushed
  have hlength : (after.push_at index none).pushers.length = after.pushers.length := List.length_modify _ _ _
  refine ⟨⟨⟨?_, ?_, hpushed.distributes.idle⟩, ?_, hlength.trans hpushed.length, ?_⟩, h.current, h.cleared,
    h.kept⟩
  · exact hpushed.distributes.many.trans_eq hlength.symm
  · exact hpushed.distributes.lengths.trans hlength.symm
  · exact (worker_congr hlength rfl).trans hpushed.worker
  · intro other
    rw [← hpushed.records, handed_push_at (hindex.trans_eq hpushed.length.symm)]
    change _ ++ after.held other = _
    rw [Option.elim_none, ite_self, List.append_nil]

/-- Clearing one worker after another clears all of them. -/
theorem Distributes.clears_foldl {exchange : Exchange T D} (h : exchange.Distributes)
    (act : Exchange T D → ℕ → Exchange T D) (indices : List ℕ)
    (hact : ∀ {before : Exchange T D} {index : ℕ}, before.Distributes →
      before.pushers.length = exchange.pushers.length → index ∈ indices → Clears before index (act before index)) :
    Pushed exchange [] (indices.foldl act exchange) ∧
      (indices.foldl act exchange).current = exchange.current ∧
      ∀ index ∈ indices, (indices.foldl act exchange).held index = [] := by
  induction indices using List.reverseRecOn with
  | nil => exact ⟨h.pushed, rfl, fun _ hindex => absurd hindex List.not_mem_nil⟩
  | append_singleton indices index ih =>
    obtain ⟨hpushed, hcurrent, hcleared⟩ := ih fun hbefore hlength hindex =>
      hact hbefore hlength (List.mem_append_left _ hindex)
    rw [List.foldl_append]
    have hlast := hact hpushed.distributes hpushed.length
      (List.mem_append_right indices (List.mem_singleton_self index))
    refine ⟨hpushed.trans hlast.pushed, hlast.current.trans hcurrent, ?_⟩
    intro other hother
    rcases List.mem_append.mp hother with hold | hnew
    · exact hlast.kept other (hcleared other hold)
    · rw [List.mem_singleton.mp hnew]
      exact hlast.cleared

theorem held_of_length_le {exchange : Exchange T D} {index : ℕ} (h : exchange.buffers.length ≤ index) :
    exchange.held index = [] := by
  unfold held
  rw [List.getElem?_eq_none h]
  split
  · rfl
  · rfl

/-- After a flush of all workers nothing is held. -/
theorem flushed_of_cleared {exchange after : Exchange T D} (h : Pushed exchange [] after)
    (hcleared : ∀ index ∈ List.range exchange.pushers.length, after.held index = []) : after.Flushed := by
  rw [h.distributes.flushed_iff]
  intro index
  by_cases hindex : index < exchange.pushers.length
  · exact hcleared index (List.mem_range.mpr hindex)
  · apply held_of_length_le
    rw [h.distributes.lengths, h.length]
    exact Nat.le_of_not_lt hindex

theorem Distributes.flush_all {exchange : Exchange T D} (h : exchange.Distributes) :
    Pushed exchange [] exchange.flush_all ∧ exchange.flush_all.current = exchange.current ∧
      exchange.flush_all.Flushed := by
  obtain ⟨hpushed, hcurrent, hcleared⟩ :=
    h.clears_foldl flush (List.range exchange.pushers.length) fun hbefore _ _ => hbefore.clears_flush _
  exact ⟨hpushed, hcurrent, flushed_of_cleared hpushed hcleared⟩

/-! ### Pushing -/

variable [DecidableEq T]

/-- Pushing `none` hands all records to their workers. -/
theorem Distributes.push_none {exchange : Exchange T D} (h : exchange.Distributes) :
    Pushed exchange [] (exchange.push none) ∧ (exchange.push none).Flushed := by
  have hmany := h.many
  unfold push
  rw [if_neg (by omega)]
  obtain ⟨hpushed, -, hcleared⟩ := h.clears_foldl
    (fun exchange index => (exchange.flush index).push_at index none)
    (List.range exchange.pushers.length) fun hbefore hlength hindex =>
      (hbefore.clears_flush _).push_none ((List.mem_range.mp hindex).trans_eq hlength.symm)
  exact ⟨hpushed, flushed_of_cleared hpushed hcleared⟩

theorem Distributes.push_datum {exchange : Exchange T D} (h : exchange.Distributes) {time : T}
    (hcurrent : exchange.current = some time) (datum : D) :
    Pushed exchange [(time, datum)] (exchange.push_datum time datum) ∧
      (exchange.push_datum time datum).current = some time := by
  have hindex := h.worker_lt (time, datum)
  have hbuffered : Pushed exchange [(time, datum)]
      { exchange with
        current := some time
        buffers := exchange.buffers.modify (exchange.target time datum) fun buffer => buffer ++ [datum] } := by
    refine ⟨⟨h.many, (List.length_modify _ _ _).trans h.lengths, fun hnone => ?_⟩, rfl, rfl, ?_⟩
    · exact absurd hnone (Option.some_ne_none time)
    · intro other
      change exchange.handed other ++ _ = _
      rw [List.append_assoc]
      congr 1
      unfold held
      rw [hcurrent]
      change exchange.target time datum < exchange.buffers.length at hindex
      by_cases hother : exchange.target time datum = other
      · subst hother
        simp [List.getElem?_eq_getElem hindex, worker]
      · simp [List.getElem?_modify_ne _ _ hother, worker, hother]
  unfold Exchange.push_datum
  dsimp only
  split
  · have hflushed := hbuffered.distributes.clears_flush (exchange.target time datum)
    exact ⟨hbuffered.trans hflushed.pushed, hflushed.current⟩
  · exact ⟨hbuffered, rfl⟩

theorem Distributes.foldl_push_datum {exchange : Exchange T D} (h : exchange.Distributes) {time : T}
    (hcurrent : exchange.current = some time) (data : List D) :
    Pushed exchange (data.map fun datum => (time, datum)) (data.foldl (Exchange.push_datum time) exchange) ∧
      (data.foldl (Exchange.push_datum time) exchange).current = some time := by
  induction data using List.reverseRecOn with
  | nil => exact ⟨h.pushed, hcurrent⟩
  | append_singleton data datum ih =>
    rw [List.foldl_append, List.map_append]
    obtain ⟨hpushed, htime⟩ := ih
    obtain ⟨hlast, hafter⟩ := hpushed.distributes.push_datum htime datum
    exact ⟨hpushed.trans hlast, hafter⟩

/-- Nothing is held at another time. -/
theorem Distributes.at_time {exchange : Exchange T D} (h : exchange.Distributes) {time : T}
    (hsame : exchange.current = some time ∨ exchange.Flushed) :
    Pushed exchange [] { exchange with current := some time } := by
  refine ⟨⟨h.many, h.lengths, fun hnone => absurd hnone (Option.some_ne_none time)⟩, rfl, rfl, ?_⟩
  intro index
  change exchange.handed index ++ _ = _
  rw [List.filter_nil, List.append_nil]
  congr 1
  rcases hsame with hcurrent | hflushed
  · unfold held
    rw [hcurrent]
  · have hafter : ({ exchange with current := some time } : Exchange T D).Distributes :=
      ⟨h.many, h.lengths, fun _ => hflushed⟩
    rw [h.flushed_iff.mp hflushed index]
    exact hafter.flushed_iff.mp hflushed index

/-- Pushing a message adds its records to those of their workers. -/
theorem Distributes.push_some {exchange : Exchange T D} (h : exchange.Distributes) (message : Message T D) :
    Pushed exchange message.records (exchange.push (some message)) := by
  have hmany := h.many
  obtain ⟨hflush, htime, hflushed⟩ := h.flush_all
  have htimed : Pushed exchange [] { (if exchange.current.any fun time => time ≠ message.time then
      exchange.flush_all else exchange) with current := some message.time } := by
    split
    case isTrue => exact hflush.trans (hflush.distributes.at_time (Or.inr hflushed))
    case isFalse hsame =>
      apply h.at_time
      cases hcurrent : exchange.current with
      | none => exact Or.inr (h.idle hcurrent)
      | some time =>
        left
        rw [hcurrent] at hsame
        simpa using hsame
  unfold push
  rw [if_neg (by omega)]
  exact htimed.trans (htimed.distributes.foldl_push_datum rfl message.data).1

end Exchange

/-! ### Several consumers -/

namespace Tee

variable {T D : Type} [DecidableEq T]

/-- Forwards a message, or `none`, to all consumers. -/
def push (consumers : List (Exchange T D)) (message : Option (Message T D)) : List (Exchange T D) :=
  consumers.map fun exchange => exchange.push message

theorem foldl_push (consumers : List (Exchange T D)) (messages : List (Option (Message T D))) :
    messages.foldl push consumers =
      consumers.map fun exchange => messages.foldl Exchange.push exchange := by
  induction messages generalizing consumers with
  | nil => exact (List.map_id consumers).symm
  | cons message messages ih =>
    rw [List.foldl_cons, ih, push, List.map_map]
    rfl

end Tee

namespace Exchange

variable {T D : Type} [DecidableEq T]

/-- A list of messages hands their records to their workers, or holds them. -/
theorem Distributes.foldl_push {exchange : Exchange T D} (h : exchange.Distributes)
    (messages : List (Option (Message T D))) :
    Pushed exchange ((messages.filterMap id).flatMap Message.records) (messages.foldl push exchange) := by
  induction messages using List.reverseRecOn with
  | nil => exact h.pushed
  | append_singleton messages message ih =>
    rw [List.foldl_append, List.filterMap_append, List.flatMap_append]
    refine ih.trans ?_
    cases message with
    | none => exact ih.distributes.push_none.1
    | some message =>
      have hpushed := ih.distributes.push_some message
      rwa [← List.append_nil message.records] at hpushed

theorem distributes_new {workers : ℕ} (hmany : 2 ≤ workers) (key : T → D → ℕ) :
    (new workers key).Distributes := by
  refine ⟨hmany.trans_eq List.length_replicate.symm, ?_, fun _ buffer hbuffer => ?_⟩
  · exact List.length_replicate.trans List.length_replicate.symm
  · exact (List.mem_replicate.mp hbuffer).2

end Exchange

end Timely
