/-
  Timely/BatchCalls.lean
  ======================
  **Two change batches over a sequence of calls.**

  Batches compact when they like, and one may be drained into the other, by a swap
  or by appending.  Against maps from keys to integers, with every update made at
  once, no difference is to be seen: the sums are the same after any calls, and
  what is exposed lists each key once, in ascending order.
-/
import Timely.ChangeBatch
import Mathlib.Data.List.Induction

set_option linter.unusedSectionVars false

namespace Timely

open Library

namespace ChangeBatch

variable {K : Type} [Ord K] [DecidableEq K] [Std.TransOrd K] [Std.LawfulEqOrd K]

/-- A call of a method of one of the two batches; `drain_into` goes to the other one. -/
inductive Call (K : Type) where
  | update (side : Bool) (item : K) (value : ℤ)
  | extend (side : Bool) (iterator : List (K × ℤ))
  | compact (side : Bool)
  | iter (side : Bool)
  | is_empty (side : Bool)
  | drain (side : Bool)
  | drain_into (side : Bool)
  | clear (side : Bool)

/-- The batches after a call. -/
def perform (batches : Bool → ChangeBatch K) : Call K → Bool → ChangeBatch K
  | .update side item value => Function.update batches side ((batches side).update item value)
  | .extend side iterator => Function.update batches side ((batches side).extend iterator)
  | .compact side => Function.update batches side (batches side).compact
  | .iter side => Function.update batches side (batches side).iter.2
  | .is_empty side => Function.update batches side (batches side).is_empty.2
  | .drain side => Function.update batches side (batches side).drain.2
  | .drain_into side =>
    let drained := (batches side).drain_into (batches !side)
    Function.update (Function.update batches side drained.1) (!side) drained.2
  | .clear side => Function.update batches side (batches side).clear

/-- What a call exposes of the updates. -/
def exposed (batches : Bool → ChangeBatch K) : Call K → List (K × ℤ)
  | .iter side => (batches side).iter.1
  | .drain side => (batches side).drain.1
  | _ => []

/-- The same call on maps from keys to integers. -/
def perform_naively (sums : Bool → K → ℤ) : Call K → Bool → K → ℤ
  | .update side item value =>
    Function.update sums side fun key => sums side key + if item = key then value else 0
  | .extend side iterator =>
    Function.update sums side fun key => sums side key + tally iterator key
  | .compact _ | .iter _ | .is_empty _ => sums
  | .drain side | .clear side => Function.update sums side fun _ => 0
  | .drain_into side =>
    Function.update (Function.update sums side fun _ => 0) (!side) fun key =>
      sums side key + sums (!side) key

/-- The batches after a list of calls. -/
def perform_all (start : Bool → ChangeBatch K) (calls : List (Call K)) : Bool → ChangeBatch K :=
  calls.foldl perform start

/-- The maps after a list of calls. -/
def perform_all_naively (start : Bool → K → ℤ) (calls : List (Call K)) : Bool → K → ℤ :=
  calls.foldl perform_naively start

theorem value_set (batches : Bool → ChangeBatch K) (side side' : Bool) (batch : ChangeBatch K) :
    (Function.update batches side batch side').value
      = Function.update (fun side => (batches side).value) side batch.value side' := by
  by_cases h : side' = side
  · rw [h, Function.update_self, Function.update_self]
  · rw [Function.update_of_ne h, Function.update_of_ne h]

/-- A call does to the sums what it does to the maps. -/
theorem value_perform (batches : Bool → ChangeBatch K) (call : Call K) :
    (fun side => (perform batches call side).value)
      = perform_naively (fun side => (batches side).value) call := by
  -- a call that only compacts
  have hsame : ∀ side (batch : ChangeBatch K), batch.value = (batches side).value →
      (fun side' => (Function.update batches side batch side').value)
        = fun side' => (batches side').value := by
    intro side batch hbatch
    funext side'
    rw [value_set, hbatch, Function.update_eq_self]
  cases call with
  | update side item value =>
    funext side'
    rw [perform, perform_naively, value_set]
    congr 1
    funext key
    exact value_update (batches side) item value key
  | extend side iterator =>
    funext side'
    rw [perform, perform_naively, value_set]
    congr 1
    funext key
    exact value_extend (batches side) iterator key
  | compact side => exact hsame side _ (funext fun key => value_compact (batches side) key)
  | iter side => exact hsame side _ (funext fun key => value_compact (batches side) key)
  | is_empty side => exact hsame side _ (funext fun key => value_is_empty (batches side) key)
  | drain side =>
    funext side'
    exact value_set batches side side' new
  | drain_into side =>
    funext side'
    obtain ⟨hinto, hleft⟩ := forall_and.mp fun key =>
      value_drain_into (batches side) (batches !side) key
    rw [perform, perform_naively, value_set]
    congr 1
    · funext side''
      rw [value_set, funext hleft]
    · exact funext hinto
  | clear side =>
    funext side'
    exact value_set batches side side' new

theorem value_perform_all (start : Bool → ChangeBatch K) (calls : List (Call K)) :
    (fun side => (perform_all start calls side).value)
      = perform_all_naively (fun side => (start side).value) calls := by
  induction calls using List.reverseRecOn with
  | nil => rfl
  | append_singleton calls call ih =>
    rw [perform_all, perform_all_naively, List.foldl_append, List.foldl_append, List.foldl_cons,
      List.foldl_cons, List.foldl_nil, List.foldl_nil, value_perform]
    exact congrArg (perform_naively · call) ih

/-- The updates are those of a map: its keys, ascending, with their sums. -/
structure Lists (updates : List (K × ℤ)) (sums : K → ℤ) : Prop where
  ascending : updates.Pairwise keyLt
  distinct : (updates.map Prod.fst).Nodup
  sums_eq : ∀ key, tally updates key = sums key

theorem lists_compact (batch : ChangeBatch K) : Lists batch.compact.updates batch.value :=
  ⟨batch.compact_sorted, batch.compact_nodup_keys, batch.tally_compact⟩

/-- What is drained into another batch is not left behind. -/
theorem updates_drain_into (batch other : ChangeBatch K) :
    (batch.drain_into other).1.updates = [] := by
  unfold drain_into
  by_cases h : other.updates.isEmpty = true
  · rw [if_pos h]
    exact List.isEmpty_iff.mp h
  · rw [if_neg h]
    rfl

/-- Whatever is called, each batch holds the sums of its map, and its exposed updates are those
    of the map; what has been drained into the other one is empty. -/
theorem calls_exact (start : Bool → ChangeBatch K) (calls : List (Call K)) (side : Bool) :
    (perform_all start calls side).value
      = perform_all_naively (fun side => (start side).value) calls side
    ∧ Lists (exposed (perform_all start calls) (.iter side))
        (perform_all_naively (fun side => (start side).value) calls side)
    ∧ Lists (exposed (perform_all start calls) (.drain side))
        (perform_all_naively (fun side => (start side).value) calls side)
    ∧ Lists (perform_all start calls side).into_inner
        (perform_all_naively (fun side => (start side).value) calls side)
    ∧ (perform_all start (calls ++ [.drain_into side]) side).updates = [] := by
  have hvalue := congrFun (value_perform_all start calls) side
  have hlists := lists_compact (perform_all start calls side)
  rw [← hvalue]
  refine ⟨rfl, hlists, hlists, hlists, ?_⟩
  have hside : side ≠ !side := by cases side <;> simp
  rw [perform_all, List.foldl_append, List.foldl_cons, List.foldl_nil, perform,
    Function.update_of_ne hside, Function.update_self]
  exact updates_drain_into _ _

theorem calls_exact_example :
    (perform_all (fun _ => new) [.update true 2 1, .update true 1 3, .drain_into true,
        .extend false [(2, -1), (0, 5)]] false).into_inner = [(0, 5), (1, 3)]
    ∧ (perform_all (fun _ => new) ([.update true 2 1, .update true 1 3] ++ [.drain_into true])
        true).updates = ([] : List (ℕ × ℤ)) :=
  ⟨by decide, (calls_exact (fun _ => new) [.update true 2 1, .update true 1 3] true).2.2.2.2⟩

end ChangeBatch

end Timely
