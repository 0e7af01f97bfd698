/-
  Timely/Pullers.lean
  ===================
  **Counting what an operator receives**
  (`timely/src/dataflow/channels/pullers/counter.rs`).

  A counter between a channel and an operator counts the records of each message as
  consumed.  It takes an empty message from the channel without showing it: to
  the operator the channel looks empty then, and its loop ends.
-/
import Timely.Pushers

set_option linter.unusedSectionVars false

namespace Timely

open Library

/-- The messages that wait in a channel, and the counts that wait to be reported. -/
structure PullCounter (T D : Type) [Ord T] where
  pullable : List (Message T D)
  consumed : ChangeBatch T

namespace PullCounter

variable {T D σ : Type} [PartialOrder T] [DecidableEq T] [Ord T] [LinearExtension T]

def new : PullCounter T D := ⟨[], ChangeBatch.new⟩

/-- Retrieves the next message. -/
def next (counter : PullCounter T D) : Option (Message T D) × PullCounter T D :=
  match counter.pullable with
  | [] => (none, counter)
  | message :: rest =>
    if 0 < message.data.length then
      (some message, ⟨rest, counter.consumed.update message.time message.data.length⟩)
    else (none, { counter with pullable := rest })

/-- The loop of an operator, which visits messages as long as there is a next one. -/
def visit_all (visit : σ → Message T D → σ) : ℕ → PullCounter T D → σ → PullCounter T D × σ
  | 0, counter, state => (counter, state)
  | fuel + 1, counter, state =>
    match counter.next with
    | (none, counter) => (counter, state)
    | (some message, counter) => visit_all visit fuel counter (visit state message)

/-- The loop over what waits in the channel: each turn but the last takes a message. -/
def while_next (visit : σ → Message T D → σ) (counter : PullCounter T D) (state : σ) :
    PullCounter T D × σ :=
  visit_all visit counter.pullable.length counter state

/-- The counts of messages. -/
def counts (messages : List (Message T D)) : List (T × ℤ) :=
  messages.map fun message => (message.time, (message.data.length : ℤ))

/-- What the loop has visited: the first messages of the channel, none of them empty, and all unless
    there is an empty one. -/
structure Visited (visit : σ → Message T D → σ) (before after : PullCounter T D) (start last : σ)
    (messages : List (Message T D)) : Prop where
  state : last = messages.foldl visit start
  consumed : ∀ time, after.consumed.value time =
    before.consumed.value time + tally (counts messages) time
  nonempty : ∀ message ∈ messages, message.data ≠ []
  taken : before.pullable = messages ++ after.pullable ∧ after.pullable = [] ∨
    ∃ empty : Message T D, empty.data = [] ∧ before.pullable = messages ++ empty :: after.pullable

theorem visited_all (visit : σ → Message T D → σ) {fuel : ℕ} {counter : PullCounter T D} (state : σ)
    (hfuel : counter.pullable.length ≤ fuel) :
    ∃ messages, Visited visit counter (visit_all visit fuel counter state).1 state
      (visit_all visit fuel counter state).2 messages := by
  induction fuel generalizing counter state with
  | zero =>
    have hnil : counter.pullable = [] := List.eq_nil_of_length_eq_zero (Nat.le_zero.mp hfuel)
    exact ⟨[], rfl, fun _ => (add_zero _).symm, fun _ hmem => absurd hmem List.not_mem_nil,
      Or.inl ⟨rfl, hnil⟩⟩
  | succ fuel ih =>
    obtain ⟨pullable, consumed⟩ := counter
    cases pullable with
    | nil =>
      exact ⟨[], rfl, fun _ => (add_zero _).symm, fun _ hmem => absurd hmem List.not_mem_nil,
        Or.inl ⟨rfl, rfl⟩⟩
    | cons message rest =>
      by_cases hlength : 0 < message.data.length
      · have hnext : (⟨message :: rest, consumed⟩ : PullCounter T D).next =
            (some message, ⟨rest, consumed.update message.time message.data.length⟩) := if_pos hlength
        obtain ⟨messages, hvisited⟩ := @ih ⟨rest, consumed.update message.time
          message.data.length⟩ (visit state message) (Nat.le_of_succ_le_succ hfuel)
        unfold visit_all
        rw [hnext]
        refine ⟨message :: messages, hvisited.state, fun time => ?_, ?_, ?_⟩
        · rw [hvisited.consumed, ChangeBatch.value_update, add_assoc]
          exact congrArg (consumed.value time + ·)
            (tally_cons (message.time, (message.data.length : ℤ)) (counts messages) time).symm
        · intro other hother
          rcases List.mem_cons.mp hother with rfl | hmem
          · exact List.ne_nil_of_length_pos hlength
          · exact hvisited.nonempty other hmem
        · rcases hvisited.taken with ⟨htaken, hnil⟩ | ⟨empty, hempty, htaken⟩
          · exact Or.inl ⟨congrArg (message :: ·) htaken, hnil⟩
          · exact Or.inr ⟨empty, hempty, congrArg (message :: ·) htaken⟩
      · have hnext : (⟨message :: rest, consumed⟩ : PullCounter T D).next = (none, ⟨rest, consumed⟩) :=
          if_neg hlength
        have hempty : message.data = [] := List.eq_nil_of_length_eq_zero (Nat.eq_zero_of_not_pos hlength)
        unfold visit_all
        rw [hnext]
        exact ⟨[], rfl, fun _ => (add_zero _).symm, fun _ hmem => absurd hmem List.not_mem_nil,
          Or.inr ⟨message, hempty, rfl⟩⟩

theorem visited_while_next (visit : σ → Message T D → σ) (counter : PullCounter T D) (state : σ) :
    ∃ messages, Visited visit counter (counter.while_next visit state).1 state
      (counter.while_next visit state).2 messages :=
  visited_all visit state le_rfl

end PullCounter

end Timely
