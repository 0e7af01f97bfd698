/-
  Timely/GenericSessions.lean
  ===========================
  **What an operator sends, it sends in open sessions**
  (`timely/src/dataflow/channels/pushers/buffer.rs`, `timely/src/dataflow/operators/generic/handles.rs`).

  Records that are given to a session may wait in a buffer, and be sent when the
  capability is gone that the session was opened with.  Still each message that is
  counted has a time at which a session has been opened since the logic was invoked:
  nothing is left in a buffer when the logic returns.
-/
import Timely.GenericCapabilities

set_option linter.unusedSectionVars false

namespace Timely

open Library

variable {T D : Type} [PartialOrder T] [DecidableLE T] [DecidableEq T] [Ord T] [LinearExtension T]

/-! ### Messages in sessions -/

/-- What waits in a buffer, if anything does, waits at a time that has been opened. -/
def Buffer.Waits (buffer : Buffer T D) (opened : T → Prop) : Prop :=
  ∀ time, buffer.time = some time → buffer.buffer ≠ [] → opened time

/-- The counts of messages. -/
def counts_of (sent : List (T × ℕ)) : List (T × ℤ) := sent.map fun message => (message.1, (message.2 : ℤ))

/-- A buffer comes of another one by sending some messages, at times that have been opened. -/
structure Sends (opened : T → Prop) (before after : Buffer T D) (sent : List (T × ℕ)) : Prop where
  allowed : ∀ message ∈ sent, opened message.1
  counted : ∀ time, after.pusher.produced.value time =
    before.pusher.produced.value time + tally (counts_of sent) time
  waits : after.Waits opened

namespace Sends

variable {opened wider : T → Prop} {first second third : Buffer T D} {sent more : List (T × ℕ)}

theorem trans (h : Sends opened first second sent) (h' : Sends opened second third more) :
    Sends opened first third (sent ++ more) where
  allowed message hmem := (List.mem_append.mp hmem).elim (h.allowed message) (h'.allowed message)
  counted time := by
    unfold counts_of
    rw [h'.counted, h.counted, List.map_append, tally_append, add_assoc]
    rfl
  waits := h'.waits

/-- Nothing is sent by what leaves the counts. -/
theorem nothing (hcounted : ∀ time, second.pusher.produced.value time = first.pusher.produced.value time)
    (hwaits : second.Waits opened) : Sends opened first second [] where
  allowed _ hmem := absurd hmem List.not_mem_nil
  counted time := (hcounted time).trans (add_zero _).symm
  waits := hwaits

end Sends

namespace Buffer

variable {opened : T → Prop} {buffer : Buffer T D}

theorem waits_of_empty (h : buffer.buffer = []) : buffer.Waits opened :=
  fun _ _ hne => absurd h hne

/-- Flushing sends what waits. -/
theorem exists_sent_flush (h : buffer.Waits opened) : ∃ sent, Sends opened buffer buffer.flush sent := by
  have hwaits : buffer.flush.Waits opened := waits_of_empty buffer.flush_spec.1
  obtain ⟨time, items, capacity, pusher, hclosed⟩ := buffer
  cases time with
  | none => exact ⟨[], Sends.nothing (fun _ => rfl) hwaits⟩
  | some time =>
    by_cases hempty : items.isEmpty = true
    · refine ⟨[], Sends.nothing (fun other => ?_) hwaits⟩
      simp only [flush, hempty, if_true]
    · refine ⟨[(time, items.length)], fun message hmem => ?_, fun other => ?_, hwaits⟩
      · rw [List.mem_singleton.mp hmem]
        exact h time rfl fun hnil => hempty (List.isEmpty_iff.mpr hnil)
      · simp only [flush, if_neg hempty]
        change (pusher.produced.update time items.length).value other = _
        rw [ChangeBatch.value_update]
        exact congrArg _ (by simp [counts_of])

/-- Opening a session sends what waits at another time. -/
theorem exists_sent_session (h : buffer.Waits opened) {time : T} (hopened : opened time) :
    ∃ sent, Sends opened buffer (buffer.session time).buffer sent := by
  have hwaits : ∀ kept : Buffer T D, (kept.open_at time).Waits opened := by
    intro kept other hother _
    cases hother
    exact hopened
  unfold session
  dsimp only
  split
  · obtain ⟨sent, hsent⟩ := exists_sent_flush h
    exact ⟨sent, hsent.allowed, hsent.counted, hwaits _⟩
  · exact ⟨[], Sends.nothing (fun _ => rfl) (hwaits _)⟩

/-- Ceasing sends what waits, and leaves nothing. -/
theorem exists_sent_cease (h : buffer.Waits opened) :
    buffer.cease.buffer = [] ∧ ∃ sent, Sends opened buffer buffer.cease sent := by
  obtain ⟨sent, hsent⟩ := exists_sent_flush h
  have hempty : buffer.cease.buffer = [] := buffer.flush_spec.1
  refine ⟨hempty, sent, hsent.allowed, fun time => ?_, waits_of_empty hempty⟩
  rw [← hsent.counted]
  exact ChangeBatch.value_is_empty _ time

end Buffer

namespace Session

variable {opened : T → Prop} {session : Session T D} {time : T}

/-- Giving one record may send what waits. -/
theorem exists_sent_give (htime : session.buffer.time = some time) (hopened : opened time) (item : D) :
    ∃ sent, Sends opened session.buffer (session.give item).buffer sent := by
  unfold give
  dsimp only
  split
  · have hpushed : ({ session.buffer with
        buffer := session.buffer.buffer ++ [item]
        opened := fun h => absurd h session.is_open } : Buffer T D).Waits opened := by
      intro other hother _
      change session.buffer.time = some other at hother
      rw [htime] at hother
      cases hother
      exact hopened
    obtain ⟨sent, hsent⟩ := Buffer.exists_sent_flush hpushed
    exact ⟨sent, hsent.allowed, hsent.counted, hsent.waits⟩
  · refine ⟨[], Sends.nothing (fun _ => rfl) fun other hother _ => ?_⟩
    change session.buffer.time = some other at hother
    rw [htime] at hother
    cases hother
    exact hopened

/-- A whole message is sent after what waits. -/
theorem exists_sent_give_vec (htime : session.buffer.time = some time) (hopened : opened time)
    (hwaits : session.buffer.Waits opened) (message : List D) :
    (session.give_vec message).buffer.time = some time ∧
      ∃ sent, Sends opened session.buffer (session.give_vec message).buffer sent := by
  unfold give_vec
  by_cases hlength : 0 < message.length
  · rw [if_pos hlength]
    dsimp only
    have hget : session.buffer.time.get (Option.isSome_iff_ne_none.mpr session.is_open) = time := by
      simp only [htime, Option.get_some]
    rw [hget]
    -- what waits is flushed, and then the message is pushed at the same time
    obtain ⟨flushed, hflushed, hsame, sent, hsent⟩ : ∃ flushed : Buffer T D,
        (if session.buffer.buffer.isEmpty then session.buffer else session.buffer.flush) = flushed ∧
        flushed.time = some time ∧ ∃ sent, Sends opened session.buffer flushed sent := by
      refine ⟨_, rfl, ?_, ?_⟩
      · split
        · exact htime
        · rw [Buffer.time_flush, htime]
      · split
        · exact ⟨[], Sends.nothing (fun _ => rfl) hwaits⟩
        · exact Buffer.exists_sent_flush hwaits
    simp only [hflushed]
    have hpushed : Sends opened flushed { flushed with pusher := flushed.pusher.push (some ⟨time, message⟩) }
        [(time, message.length)] := by
      refine ⟨fun other hmem => ?_, fun other => ?_, hsent.waits⟩
      · rw [List.mem_singleton.mp hmem]
        exact hopened
      · change (flushed.pusher.produced.update time message.length).value other = _
        rw [ChangeBatch.value_update]
        exact congrArg _ (by simp [counts_of])
    exact ⟨hsame, _, hsent.trans hpushed⟩
  · rw [if_neg hlength]
    exact ⟨htime, [], Sends.nothing (fun _ => rfl) hwaits⟩

/-- Whatever is provided to a session is sent at its time, or waits at its time. -/
theorem exists_sent_provide (htime : session.buffer.time = some time) (hopened : opened time)
    (hwaits : session.buffer.Waits opened) (provision : Provision D) :
    (session.provide provision).buffer.time = some time ∧
      ∃ sent, Sends opened session.buffer (session.provide provision).buffer sent := by
  cases provision with
  | give data => exact ⟨(give_spec htime data).1, exists_sent_give htime hopened data⟩
  | give_iterator items =>
    refine List.foldlRecOn (motive := fun current : Session T D => current.buffer.time = some time ∧
      ∃ sent, Sends opened session.buffer current.buffer sent) items give ?_ ?_
    · exact ⟨htime, [], Sends.nothing (fun _ => rfl) hwaits⟩
    · rintro current ⟨hcurrent, sent, hsent⟩ item _
      obtain ⟨more, hmore⟩ := exists_sent_give hcurrent hopened item
      exact ⟨(give_spec hcurrent item).1, _, hsent.trans hmore⟩
  | give_vec message => exact exists_sent_give_vec htime hopened hwaits message

/-- A session opened at a time sends and leaves records at times that have been opened. -/
theorem exists_sent_provide_all {buffer : Buffer T D} (hopened : opened time) (hwaits : buffer.Waits opened)
    (provisions : List (Provision D)) :
    ∃ sent, Sends opened buffer (provisions.foldl provide (buffer.session time)).buffer sent := by
  obtain ⟨sent, hsent⟩ := Buffer.exists_sent_session hwaits hopened
  have hall : (provisions.foldl provide (buffer.session time)).buffer.time = some time ∧
      ∃ sent, Sends opened buffer (provisions.foldl provide (buffer.session time)).buffer sent := by
    refine List.foldlRecOn (motive := fun current : Session T D => current.buffer.time = some time ∧
      ∃ sent, Sends opened buffer current.buffer sent) provisions provide ?_ ?_
    · exact ⟨Buffer.time_session buffer time, sent, hsent⟩
    · rintro current ⟨hcurrent, sent, hsent⟩ provision _
      obtain ⟨hsame, more, hmore⟩ := exists_sent_provide hcurrent hopened hsent.waits provision
      exact ⟨hsame, _, hsent.trans hmore⟩
  exact hall.2

end Session

end Timely
