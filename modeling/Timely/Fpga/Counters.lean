/-
  Timely/Fpga/Counters.lean
  =========================
  **Which progress counters of a reply are added** (`fpga_wrapper.rs`, `raw_logic`).

  A reply without records adds the counters of all ghosts, on both paths.  A reply with
  records adds what the last ghost produced and holds, and drops the rest.
-/
import Timely.Fpga.Frames

set_option linter.unusedSectionVars false

namespace Timely.Fpga

open Library

variable {H : Type} {send_input_and_check : H → Frame → Option Frame × H}

/-! ### The states of a wrapper -/

/-- The wrappers that schedulings reach. -/
inductive Reached (send_input_and_check : H → Frame → Option Frame × H) : FpgaOperator H → Prop
  | new {ghosts : List ℕ} (hdistinct : ghosts.Nodup) (hc : H) :
      Reached send_input_and_check (FpgaOperator.new ghosts hdistinct hc)
  | scheduled {operator : FpgaOperator H} {progress : SharedProgress Time}
      {messages : List (Message Time Word)} {outcome : Bool × FpgaOperator H × SharedProgress Time} :
      Reached send_input_and_check operator → ShapedFor operator progress →
      raw_logic send_input_and_check operator progress messages = some outcome →
      Reached send_input_and_check outcome.2.1

/-- The states in which a scheduling of such a wrapper talks to the device. -/
inductive Serving (send_input_and_check : H → Frame → Option Frame × H) : Scheduling H → Prop
  | prepared {operator : FpgaOperator H} {progress : SharedProgress Time} {start : Scheduling H} :
      Reached send_input_and_check operator → ShapedFor operator progress →
      prepare operator progress = some start → Serving send_input_and_check start
  | exchanged {state after : Scheduling H} {request : Option (Message Time Word)} :
      Serving send_input_and_check state →
      on_request send_input_and_check state request = some after →
      Serving send_input_and_check after

theorem Serving.ready {state : Scheduling H} (h : Serving send_input_and_check state) : Ready state := by
  induction h with
  | prepared _ hshaped hstart =>
    obtain ⟨other, hother, hprepared⟩ := exists_prepared hshaped
    obtain rfl := Option.some.inj (hstart.symm.trans hother)
    exact hprepared.ready
  | exchanged _ hon ih => exact (exchanged_of_on_request ih hon).ready

/-! ### Counters that are added -/

/-- The count is added to the batch of the ghost, once, at some time. -/
def AddedOnce (before after : AList fun _ : ℕ => List (ChangeBatch Time)) (ghost : ℕ) (count : ℤ) :
    Prop :=
  ∃ time, ∀ other, ghost_value after ghost other = ghost_value before ghost other + at_time time count other

/-- Where nothing is added, the count was zero. -/
theorem AddedOnce.eq_zero {before after : AList fun _ : ℕ => List (ChangeBatch Time)} {ghost : ℕ}
    {count : ℤ} (h : AddedOnce before after ghost count)
    (hsame : ∀ time, ghost_value after ghost time = ghost_value before ghost time + (0 : Time → ℤ) time) :
    count = 0 := by
  obtain ⟨time, hadded⟩ := h
  have hat := (hsame time).symm.trans (hadded time)
  rw [Pi.zero_apply, at_time, if_pos rfl] at hat
  omega

theorem addedOnce_zero {before after : AList fun _ : ℕ => List (ChangeBatch Time)} {ghost : ℕ}
    (hsame : ∀ time, ghost_value after ghost time = ghost_value before ghost time + (0 : Time → ℤ) time) :
    AddedOnce before after ghost 0 := by
  refine ⟨0, fun other => (hsame other).trans ?_⟩
  rw [at_time, Pi.zero_apply, ite_self]

/-- All counters that the reply holds for the ghost are added. -/
structure CountersAdded (operator : FpgaOperator H) (output : Frame)
    (before after : SharedProgress Time) (ghost : ℕ × ℕ) : Prop where
  consumed : AddedOnce before.wrapper_consumeds after.wrapper_consumeds ghost.2
    (counters_of operator output ghost).consumed
  produced : AddedOnce before.wrapper_produceds after.wrapper_produceds ghost.2
    (counters_of operator output ghost).produced
  internal : AddedOnce before.wrapper_internals after.wrapper_internals ghost.2
    (counters_of operator output ghost).internal_update

/-- The counters that a reply with records drops are zero: all but those of the last ghost, and
    its consumed messages. -/
def NothingDropped (operator : FpgaOperator H) (output : Frame) : Prop :=
  ∀ ghost ∈ operator.ghost_indexes,
    (counters_of operator output ghost).consumed = 0 ∧
      (operator.ghost_indexes.getLast? ≠ some ghost →
        (counters_of operator output ghost).produced = 0 ∧
          (counters_of operator output ghost).internal_update = 0)

/-- A reply adds all its counters exactly where it has no records or drops nothing. -/
theorem Replied.countersAdded_iff {operator : FpgaOperator H} {time : Time} {output : Frame}
    {before after : SharedProgress Time} (h : Replied operator time output before after) :
    (∀ ghost ∈ operator.ghost_indexes, CountersAdded operator output before after ghost) ↔
      decode output = [] ∨ NothingDropped operator output := by
  by_cases hrecords : decode output = []
  · refine ⟨fun _ => Or.inl hrecords, fun _ ghost hghost => ?_⟩
    have hadds := h ghost hghost
    simp only [if_pos hrecords] at hadds
    exact ⟨⟨_, hadds.consumed⟩, ⟨_, hadds.produced⟩, ⟨_, hadds.internal⟩⟩
  · constructor
    · intro hadded
      refine Or.inr fun ghost hghost => ?_
      have hadds := h ghost hghost
      simp only [if_neg hrecords] at hadds
      by_cases hlast : operator.ghost_indexes.getLast? = some ghost
      · rw [if_pos hlast] at hadds
        exact ⟨(hadded ghost hghost).consumed.eq_zero hadds.consumed,
          fun hother => absurd hlast hother⟩
      · rw [if_neg hlast] at hadds
        exact ⟨(hadded ghost hghost).consumed.eq_zero hadds.consumed, fun _ =>
          ⟨(hadded ghost hghost).produced.eq_zero hadds.produced,
            (hadded ghost hghost).internal.eq_zero hadds.internal⟩⟩
    · intro hdropped ghost hghost
      obtain ⟨hconsumed, hothers⟩ := hdropped.resolve_left hrecords ghost hghost
      have hadds := h ghost hghost
      simp only [if_neg hrecords] at hadds
      by_cases hlast : operator.ghost_indexes.getLast? = some ghost
      · rw [if_pos hlast] at hadds
        refine ⟨?_, ⟨_, hadds.produced⟩, ⟨_, hadds.internal⟩⟩
        rw [hconsumed]
        exact addedOnce_zero hadds.consumed
      · rw [if_neg hlast] at hadds
        obtain ⟨hproduced, hinternal⟩ := hothers hlast
        constructor
        · rw [hconsumed]
          exact addedOnce_zero hadds.consumed
        · rw [hproduced]
          exact addedOnce_zero hadds.produced
        · rw [hinternal]
          exact addedOnce_zero hadds.internal

/-- On both paths, the counters of a reply are added exactly where there are one to six ghosts and
    the reply has no records, or none of the counters that are dropped beside records is set. -/
theorem counters_added_iff {state : Scheduling H} (hserving : Serving send_input_and_check state)
    (request : Option (Message Time Word)) {output : Frame}
    (hreply : (answer send_input_and_check state request).1 = some output) :
    (∃ after, on_request send_input_and_check state request = some after ∧
        ∀ ghost ∈ state.operator.ghost_indexes,
          CountersAdded state.operator output state.progress after.progress ghost) ↔
      1 ≤ state.operator.ghost_indexes.length ∧ state.operator.ghost_indexes.length ≤ 6 ∧
        (decode output = [] ∨ NothingDropped state.operator output) := by
  constructor
  · rintro ⟨after, hafter, hadded⟩
    have hexchanged := exchanged_of_on_request hserving.ready hafter
    refine ⟨?_, ?_, (hexchanged.replied output hreply).countersAdded_iff.mp hadded⟩
    · by_contra hnone
      have hempty : state.operator.ghost_indexes = [] := List.length_eq_zero_iff.mp (by omega)
      rw [on_request_eq_none_of_no_ghosts hempty] at hafter
      cases hafter
    · by_contra hmany
      rw [on_request_eq_none_of_many_ghosts (Nat.lt_of_not_le hmany) hreply] at hafter
      cases hafter
  · rintro ⟨hsome, hfew, hcounters⟩
    have hghosts : state.operator.ghost_indexes ≠ [] :=
      List.ne_nil_of_length_pos hsome
    obtain ⟨after, hafter, hexchanged⟩ :=
      exists_exchanged hserving.ready hghosts request fun _ _ => hfew
    exact ⟨after, hafter, (hexchanged.replied output hreply).countersAdded_iff.mpr hcounters⟩

/-! ### An example -/

/-- A device that always gives the same reply. -/
def replying (output : Frame) (_ : Unit) (_ : Frame) : Option Frame × Unit := (some output, ())

theorem exists_example_start (val : Word) :
    ∃ start, Serving (replying (example_reply val)) start ∧
      start.operator.ghost_indexes = [(0, 1), (1, 2), (2, 3)] := by
  obtain ⟨start, hstart, hprepared⟩ := exists_prepared (example_shaped ())
  exact ⟨start, Serving.prepared (Reached.new _ _) (example_shaped ()) hstart,
    hprepared.prepares.ghost_indexes⟩

/-- The reply has the record 7, and the message that the first ghost consumed is dropped. -/
theorem consumed_counter_dropped :
    ∃ state after, Serving (replying (example_reply 15)) state ∧
      on_request (replying (example_reply 15)) state (some ⟨3, [5]⟩) = some after ∧
      ¬ ∀ ghost ∈ state.operator.ghost_indexes,
        CountersAdded state.operator (example_reply 15) state.progress after.progress ghost := by
  obtain ⟨start, hserving, hghosts⟩ := exists_example_start 15
  obtain ⟨after, hafter, hexchanged⟩ := exists_exchanged hserving.ready
    (by rw [hghosts]; decide) (some ⟨3, [5]⟩) (fun _ _ => by rw [hghosts]; decide)
  refine ⟨start, after, hserving, hafter, fun hadded => ?_⟩
  have hrecords : decode (example_reply 15) ≠ [] := by decide
  have hdropped := ((hexchanged.replied _ rfl).countersAdded_iff.mp hadded).resolve_left hrecords
  have hconsumed := (hdropped (0, 1) (by rw [hghosts]; decide)).1
  unfold counters_of at hconsumed
  rw [hghosts] at hconsumed
  exact absurd hconsumed (by decide)

theorem counters_added_iff_example :
    ∃ state after, on_request (replying (example_reply 0)) state none = some after ∧
      ∀ ghost ∈ state.operator.ghost_indexes,
        CountersAdded state.operator (example_reply 0) state.progress after.progress ghost := by
  obtain ⟨start, hserving, hghosts⟩ := exists_example_start 0
  have hiff := counters_added_iff hserving none rfl
  rw [hghosts] at hiff
  obtain ⟨after, hafter, hadded⟩ := hiff.mpr ⟨by decide, by decide, Or.inl (by decide)⟩
  exact ⟨start, after, hafter, by rw [hghosts]; exact hadded⟩

end Timely.Fpga
