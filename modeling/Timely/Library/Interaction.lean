/-
  Timely/Library/Interaction.lean
  ===============================
  **Programs that make calls.**

  A program that is not known makes calls of a known interface, and goes on with the
  replies.  What a handler of the calls keeps, with a history of what has been called,
  each such program keeps.
-/
import Timely.Library.Run

namespace Library

variable {Call Reply Result State : Type*}

/-- A program that makes calls, goes on with the replies, and ends with a result. -/
inductive Interaction (Call Reply Result : Type*) where
  | done (result : Result)
  | call (request : Call) (next : Reply → Interaction Call Reply Result)

namespace Interaction

/-- The result of a program whose calls go to a handler, and the state that this leaves. -/
def perform (handler : State → Call → Option (Reply × State)) :
    Interaction Call Reply Result → State → Option (Result × State)
  | done result, state => some (result, state)
  | call request next, state =>
    (handler state request).bind fun replied => (next replied.1).perform handler replied.2

/-- A program that comes to its end has made a run of calls. -/
theorem exists_run {handler : State → Call → Option (Reply × State)}
    {program : Interaction Call Reply Result} {start last : State} {result : Result}
    (h : program.perform handler start = some (result, last)) :
    ∃ requests, Run (fun before request after => ∃ reply, handler before request = some (reply, after))
      start requests last := by
  induction program generalizing start with
  | done _ =>
    cases h
    exact ⟨[], Run.nil⟩
  | call request next ih =>
    obtain ⟨⟨reply, middle⟩, hhandled, hrest⟩ := Option.bind_eq_some_iff.mp h
    obtain ⟨requests, hrun⟩ := ih reply hrest
    have hfirst : Run (fun before request after => ∃ reply, handler before request = some (reply, after))
        start [request] middle := Run.nil.snoc ⟨reply, hhandled⟩
    exact ⟨[request] ++ requests, hfirst.append hrun⟩

/-- What every call keeps is kept by the whole program. -/
theorem invariant {handler : State → Call → Option (Reply × State)}
    {program : Interaction Call Reply Result} {start last : State} {result : Result} {P : State → Prop}
    (h : program.perform handler start = some (result, last)) (hstart : P start)
    (hcall : ∀ {before request reply after}, P before → handler before request = some (reply, after) →
      P after) : P last := by
  obtain ⟨requests, hrun⟩ := exists_run h
  refine hrun.invariant (P := fun _ state => P state) hstart ?_
  rintro _ before request after hbefore ⟨reply, hhandled⟩
  exact hcall hbefore hhandled

end Interaction

end Library
