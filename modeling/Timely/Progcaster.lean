/-
  Timely/Progcaster.lean
  ======================
  **Broadcasting progress** (`timely/src/progress/broadcast.rs`).

  A progcaster sends a compacted change batch to all workers, and adds what it
  receives to another one.  It keeps the message that the last pusher has left
  behind, whatever that is, to re-use its allocation.
-/
import Timely.ChangeBatch
import Timely.Location

set_option linter.unusedSectionVars false

namespace Timely

open Library

/-- A list of progress updates. -/
abbrev ProgressVec (T : Type) : Type := List ((Location × T) × ℤ)

/-- A progress update message: the source worker, a sequence number, and the updates. -/
structure ProgressMsg (T : Type) where
  source : ℕ
  counter : ℕ
  changes : ProgressVec T
deriving DecidableEq

/-- Manages broadcasting of progress updates to and receiving updates from workers. -/
structure Progcaster (T : Type) where
  to_push : Option (ProgressMsg T)
  source : ℕ
  counter : ℕ

namespace Progcaster

variable {T : Type} [PartialOrder T] [DecidableLE T] [DecidableEq T] [Ord T] [LinearExtension T]

/-- Creates a new `Progcaster` for a worker. -/
def new (source : ℕ) : Progcaster T := ⟨none, source, 0⟩

/-- The message for the next pusher: a message left behind is filled again. -/
def refill (progcaster : Progcaster T) (changes : ChangeBatch (Location × T)) : ProgressMsg T :=
  match progcaster.to_push with
  | some tuple =>
    { tuple with
      source := progcaster.source
      counter := progcaster.counter
      changes := changes.iter.1 }
  | none => ⟨progcaster.source, progcaster.counter, changes.into_inner⟩

/-- Give the message to one pusher, which leaves something behind. -/
def push_one (changes : ChangeBatch (Location × T))
    (state : Progcaster T × List (ProgressMsg T)) (left : Option (ProgressMsg T)) :
    Progcaster T × List (ProgressMsg T) :=
  ({ state.1 with to_push := left }, state.2 ++ [state.1.refill changes])

/-- Sends pointstamp changes to all workers.  Each pusher is given by what it leaves behind; the
    result has the message for each pusher, and the changes that are left. -/
def send (progcaster : Progcaster T) (pushers : List (Option (ProgressMsg T)))
    (changes : ChangeBatch (Location × T)) :
    Progcaster T × List (ProgressMsg T) × ChangeBatch (Location × T) :=
  let compacted := changes.compact
  if compacted.is_empty.1 then (progcaster, [], compacted.is_empty.2)
  else
    let pushed := pushers.foldl (push_one compacted) (progcaster, [])
    ({ pushed.1 with counter := pushed.1.counter + 1 }, pushed.2, compacted.clear)

/-- Receives pointstamp changes from all workers: the messages that are there. -/
def recv (messages : List (ProgressMsg T)) (changes : ChangeBatch (Location × T)) :
    ChangeBatch (Location × T) :=
  messages.foldl (fun changes message =>
    message.changes.foldl (fun kept change => kept.update change.1 change.2) changes) changes

/-! ### What is sent -/

/-- The message that says what a batch holds. -/
def announce (progcaster : Progcaster T) (changes : ChangeBatch (Location × T)) : ProgressMsg T :=
  ⟨progcaster.source, progcaster.counter, changes.compact.updates⟩

/-- A message is filled with the changes, whatever a pusher has left behind. -/
theorem refill_eq (progcaster : Progcaster T) (changes : ChangeBatch (Location × T)) :
    progcaster.refill changes = progcaster.announce changes := by
  unfold refill
  split
  · rfl
  · rfl

theorem foldl_push_one (changes : ChangeBatch (Location × T)) (pushers : List (Option (ProgressMsg T)))
    (progcaster : Progcaster T) (pushed : List (ProgressMsg T)) :
    (pushers.foldl (push_one changes) (progcaster, pushed)).1.source = progcaster.source ∧
    (pushers.foldl (push_one changes) (progcaster, pushed)).1.counter = progcaster.counter ∧
    (pushers.foldl (push_one changes) (progcaster, pushed)).2 =
      pushed ++ List.replicate pushers.length (progcaster.announce changes) := by
  induction pushers generalizing progcaster pushed with
  | nil => exact ⟨rfl, rfl, (List.append_nil _).symm⟩
  | cons left pushers ih =>
    obtain ⟨hsource, hcounter, hpushed⟩ := ih { progcaster with to_push := left }
      (pushed ++ [progcaster.refill changes])
    refine ⟨hsource, hcounter, ?_⟩
    rw [List.foldl_cons]
    unfold push_one at hpushed ⊢
    rw [hpushed, List.length_cons, List.replicate_succ, refill_eq, List.append_assoc]
    rfl

/-- A batch is empty after compacting exactly if no update is left. -/
theorem is_empty_compact (changes : ChangeBatch (Location × T)) :
    (changes.compact.is_empty.1 = true ↔ changes.compact.updates = []) ∧
      changes.compact.is_empty.2 = changes.compact := by
  unfold ChangeBatch.is_empty
  rw [ChangeBatch.compact_clean, ChangeBatch.compact_compact]
  split
  case isTrue h =>
    constructor
    · constructor
      · intro hfalse
        cases hfalse
      · intro hnil
        rw [hnil] at h
        exact absurd h (by simp)
    · rfl
  case isFalse => exact ⟨List.isEmpty_iff, rfl⟩

/-- What sending does: nothing without changes, and else each pusher gets the compacted changes
    under the next number.  In both cases the changes are gone. -/
structure Sent (progcaster : Progcaster T) (count : ℕ) (changes : ChangeBatch (Location × T))
    (after : Progcaster T) (messages : List (ProgressMsg T)) (left : ChangeBatch (Location × T)) :
    Prop where
  source : after.source = progcaster.source
  empty : left.updates = []
  silent : changes.compact.updates = [] → messages = [] ∧ after.counter = progcaster.counter
  spoken : changes.compact.updates ≠ [] →
    messages = List.replicate count (progcaster.announce changes) ∧
      after.counter = progcaster.counter + 1

theorem sent_send (progcaster : Progcaster T) (pushers : List (Option (ProgressMsg T)))
    (changes : ChangeBatch (Location × T)) :
    Sent progcaster pushers.length changes (progcaster.send pushers changes).1
      (progcaster.send pushers changes).2.1 (progcaster.send pushers changes).2.2 := by
  obtain ⟨hempty, hkept⟩ := is_empty_compact changes
  unfold send
  by_cases h : changes.compact.is_empty.1 = true
  · have hnil := hempty.mp h
    simp only [h, if_true, hkept]
    exact ⟨rfl, hnil, fun _ => ⟨rfl, rfl⟩, fun hne => absurd hnil hne⟩
  · have hne : changes.compact.updates ≠ [] := fun hnil => h (hempty.mpr hnil)
    obtain ⟨hsource, hcounter, hpushed⟩ := foldl_push_one changes.compact pushers progcaster []
    simp only [h, Bool.false_eq_true, if_false]
    refine ⟨hsource, rfl, fun hnil => absurd hnil hne, fun _ => ⟨?_, ?_⟩⟩
    · rw [hpushed, List.nil_append]
      unfold announce
      rw [ChangeBatch.compact_compact]
    · rw [hcounter]

/-! ### What is received -/

theorem value_recv (messages : List (ProgressMsg T)) (changes : ChangeBatch (Location × T))
    (key : Location × T) :
    (recv messages changes).value key =
      changes.value key + tally (messages.flatMap ProgressMsg.changes) key := by
  induction messages generalizing changes with
  | nil => exact (add_zero _).symm
  | cons message messages ih =>
    unfold recv at ih ⊢
    rw [List.foldl_cons, ih, ChangeBatch.value_foldl_update, List.flatMap_cons, tally_append, add_assoc]

end Progcaster

end Timely
