/-
  Timely/Notificator.lean
  =======================
  **Requests for notification**
  (`timely/src/dataflow/operators/generic/notificator.rs`, `FrontierNotificator`).

  A requested notification is pending until some call finds that no input can
  bring its time any more.  Then it is available, in a heap from which the next
  one to deliver is taken.  What a call does is stated here for the times that
  are pending and available.
-/
import Timely.Capability
import Timely.Frontier
import Timely.Library.PriorityQueue

set_option linter.unusedSectionVars false

namespace Timely

open Library

variable {T : Type} [PartialOrder T] [DecidableLE T] [DecidableEq T] [Ord T] [LinearExtension T]

/-- The order of `OrderReversed`: by time, earlier ones first. -/
def earlier (first second : Capability T) : Prop := sortsBefore first.time second.time

instance : DecidableRel (earlier (T := T)) := fun first second =>
  inferInstanceAs (Decidable (sortsBefore first.time second.time))

instance : Std.Total (earlier (T := T)) := ⟨fun first second => sortsBefore_total first.time second.time⟩

instance : IsTrans (Capability T) earlier := ⟨fun _ _ _ h h' => sortsBefore_trans h h'⟩

/-- Some element of the frontier is less than or equal to `time`. -/
def MutableAntichain.less_equal (antichain : MutableAntichain T) (time : T) : Bool :=
  antichain.frontier.any fun least => least ≤ time

/-- No element of any of the frontiers is less than or equal to `time`. -/
def beyond (frontiers : List (MutableAntichain T)) (time : T) : Bool :=
  frontiers.all fun f => !f.less_equal time

/-! The heap of available notifications is any one that follows this order. -/

variable [PriorityHeap (Capability T) earlier]

/-- Tracks requests for notification and delivers available notifications. -/
structure FrontierNotificator (T : Type) [Ord T] [PriorityHeap (Capability T) earlier] where
  pending : List (Capability T × ℕ)
  available : PriorityQueue (Capability T) earlier
  counted : ∀ request ∈ pending, 0 < request.2

namespace FrontierNotificator

/-! ### Operations -/

/-- Allocates a new notificator with initial capabilities. -/
def from_iter (iter : List (Capability T)) : FrontierNotificator T where
  pending := iter.map fun x => (x, 1)
  available := PriorityQueue.new
  counted := by
    intro request hrequest
    obtain ⟨_, _, rfl⟩ := List.mem_map.mp hrequest
    exact Nat.one_pos

/-- Requests a notification at the time of a capability. -/
def notify_at (notificator : FrontierNotificator T) (cap : Capability T) : FrontierNotificator T where
  pending := notificator.pending ++ [(cap, 1)]
  available := notificator.available
  counted := by
    intro request hrequest
    rcases List.mem_append.mp hrequest with hold | hnew
    · exact notificator.counted request hold
    · rw [List.mem_singleton.mp hnew]
      exact Nat.one_pos

/-- Requests a notification, which is available at once if the frontiers are past its time. -/
def notify_at_frontiered (notificator : FrontierNotificator T) (cap : Capability T)
    (frontiers : List (MutableAntichain T)) : FrontierNotificator T :=
  if beyond frontiers cap.time then { notificator with available := notificator.available.push cap }
  else notificator.notify_at cap

/-- The pass over adjacent requests: one whose time comes again gives its count to the next one
    and keeps zero. -/
def mergeFrom (request : Capability T × ℕ) : List (Capability T × ℕ) → List (Capability T × ℕ)
  | [] => [request]
  | next :: rest =>
    if request.1.time = next.1.time then (request.1, 0) :: mergeFrom (next.1, next.2 + request.2) rest
    else request :: mergeFrom next rest

def merge : List (Capability T × ℕ) → List (Capability T × ℕ)
  | [] => []
  | request :: rest => mergeFrom request rest

/-- Sort the requests by time, add up the counts of equal times, and retain those that count. -/
def consolidated (pending : List (Capability T × ℕ)) : List (Capability T × ℕ) :=
  (merge (pending.insertionSort fun x y => sortsBefore x.1.time y.1.time)).filter fun x => 0 < x.2

/-- Enables pending notifications not in advance of any element of the frontiers. -/
def make_available (notificator : FrontierNotificator T) (frontiers : List (MutableAntichain T)) :
    FrontierNotificator T :=
  if notificator.pending.isEmpty then notificator
  else
    let pending := consolidated notificator.pending
    { pending :=
        (pending.map fun x => if beyond frontiers x.1.time then (x.1, 0) else x).filter fun x => 0 < x.2
      available :=
        ((pending.filter fun x => beyond frontiers x.1.time).map Prod.fst).foldl PriorityQueue.push
          notificator.available
      counted := fun request hrequest => by simpa using List.of_mem_filter hrequest }

/-- The notificator that `next` takes from: it looks for pending notifications when none is
    available. -/
def ready (notificator : FrontierNotificator T) (frontiers : List (MutableAntichain T)) :
    FrontierNotificator T :=
  if notificator.available.is_empty then notificator.make_available frontiers else notificator

/-- The next available capability, if there is one, and the notificator that this leaves: further
    requests for the same capability go with it. -/
def next (notificator : FrontierNotificator T) (frontiers : List (MutableAntichain T)) :
    Option (Capability T) × FrontierNotificator T :=
  match (notificator.ready frontiers).available.pop with
  | none => (none, notificator.ready frontiers)
  | some (front, rest) =>
    (some front, { notificator.ready frontiers with available := rest.pop_while fun cap => cap = front })

/-! ### Times that are pending and available -/

/-- A request for `time` is pending. -/
def Pending (notificator : FrontierNotificator T) (time : T) : Prop :=
  ∃ request ∈ notificator.pending, request.1.time = time

/-- A notification for `time` is available. -/
def Available (notificator : FrontierNotificator T) (time : T) : Prop :=
  ∃ cap ∈ notificator.available.items, cap.time = time

/-- What is not available is pending. -/
def Waiting (notificator : FrontierNotificator T) (time : T) : Prop :=
  notificator.Pending time ∨ notificator.Available time

theorem pending_from_iter (iter : List (Capability T)) (time : T) :
    (from_iter iter).Pending time ↔ ∃ cap ∈ iter, cap.time = time := by
  simp [Pending, from_iter]

theorem not_available_from_iter (iter : List (Capability T)) (time : T) :
    ¬ (from_iter iter).Available time := by
  rintro ⟨_, hmem, -⟩
  rw [from_iter, PriorityQueue.items_new] at hmem
  exact absurd hmem List.not_mem_nil

theorem pending_notify_at (notificator : FrontierNotificator T) (cap : Capability T) (time : T) :
    (notificator.notify_at cap).Pending time ↔ notificator.Pending time ∨ cap.time = time := by
  simp [Pending, notify_at, or_and_right, exists_or]

theorem available_notify_at (notificator : FrontierNotificator T) (cap : Capability T) (time : T) :
    (notificator.notify_at cap).Available time ↔ notificator.Available time := Iff.rfl

theorem available_push (notificator : FrontierNotificator T) (cap : Capability T) (time : T) :
    ({ notificator with available := notificator.available.push cap } : FrontierNotificator T).Available time
      ↔ notificator.Available time ∨ cap.time = time := by
  simp [Available, or_and_right, exists_or, or_comm]

/-- What `notify_at_frontiered` does: it makes the time available, or leaves it pending. -/
theorem notify_at_frontiered_cases (notificator : FrontierNotificator T) (cap : Capability T)
    (frontiers : List (MutableAntichain T)) :
    (beyond frontiers cap.time = true ∧
      notificator.notify_at_frontiered cap frontiers =
        { notificator with available := notificator.available.push cap }) ∨
    (beyond frontiers cap.time = false ∧
      notificator.notify_at_frontiered cap frontiers = notificator.notify_at cap) := by
  unfold notify_at_frontiered
  cases beyond frontiers cap.time with
  | true => exact Or.inl ⟨rfl, rfl⟩
  | false => exact Or.inr ⟨rfl, rfl⟩

/-! ### Merging keeps the times -/

theorem exists_mem_mergeFrom {request : Capability T × ℕ} {rest : List (Capability T × ℕ)}
    (hrequest : 0 < request.2) (hrest : ∀ other ∈ rest, 0 < other.2) (time : T) :
    (∃ other ∈ (mergeFrom request rest).filter fun x => 0 < x.2, other.1.time = time) ↔
      ∃ other ∈ request :: rest, other.1.time = time := by
  induction rest generalizing request with
  | nil => simp [mergeFrom, hrequest]
  | cons next rest ih =>
    have hnext : 0 < next.2 := hrest next List.mem_cons_self
    have hrest' : ∀ other ∈ rest, 0 < other.2 := fun other hother => hrest other (List.mem_cons_of_mem _ hother)
    unfold mergeFrom
    by_cases hsame : request.1.time = next.1.time
    · rw [if_pos hsame, List.filter_cons_of_neg (by simp), ih (by simp [hnext]) hrest']
      simp [hsame]
    · rw [if_neg hsame, List.filter_cons_of_pos (by simpa using hrequest), List.exists_mem_cons_iff,
        ih hnext hrest']
      exact (List.exists_mem_cons_iff (fun other : Capability T × ℕ => other.1.time = time) request _).symm

/-- Consolidating requests keeps their times. -/
theorem exists_mem_consolidated {pending : List (Capability T × ℕ)} (h : ∀ request ∈ pending, 0 < request.2)
    (time : T) :
    (∃ request ∈ consolidated pending, request.1.time = time) ↔ ∃ request ∈ pending, request.1.time = time := by
  have hperm := List.perm_insertionSort (fun x y : Capability T × ℕ => sortsBefore x.1.time y.1.time) pending
  unfold consolidated
  have hsorted : ∀ request ∈ pending.insertionSort fun x y => sortsBefore x.1.time y.1.time, 0 < request.2 :=
    fun request hrequest => h request (hperm.mem_iff.mp hrequest)
  have hmem : (∃ request ∈ pending, request.1.time = time) ↔
      ∃ request ∈ pending.insertionSort fun x y => sortsBefore x.1.time y.1.time, request.1.time = time := by
    simp only [hperm.mem_iff]
  rw [hmem]
  cases hcases : pending.insertionSort fun x y => sortsBefore x.1.time y.1.time with
  | nil => simp [merge]
  | cons request rest =>
    rw [hcases] at hsorted
    exact exists_mem_mergeFrom (hsorted request List.mem_cons_self)
      (fun other hother => hsorted other (List.mem_cons_of_mem _ hother)) time

/-! ### What the calls do -/

/-- `make_available` moves the pending times that the frontiers are past. -/
theorem make_available_spec (notificator : FrontierNotificator T) (frontiers : List (MutableAntichain T))
    (time : T) :
    ((notificator.make_available frontiers).Pending time ↔
      notificator.Pending time ∧ beyond frontiers time = false) ∧
    ((notificator.make_available frontiers).Available time ↔
      notificator.Available time ∨ (notificator.Pending time ∧ beyond frontiers time = true)) := by
  have hsame := exists_mem_consolidated notificator.counted time
  unfold make_available
  split
  case isTrue hempty =>
    have hnone : ¬ notificator.Pending time := by
      rintro ⟨request, hrequest, -⟩
      rw [List.isEmpty_iff.mp hempty] at hrequest
      exact List.not_mem_nil hrequest
    exact ⟨⟨fun h => absurd h hnone, fun h => absurd h.1 hnone⟩, ⟨Or.inl, fun h =>
      h.resolve_right fun h => hnone h.1⟩⟩
  case isFalse =>
    unfold Pending Available
    rw [← hsame]
    constructor
    · constructor
      · rintro ⟨request, hrequest, rfl⟩
        obtain ⟨hmem, hcount⟩ := List.mem_filter.mp hrequest
        obtain ⟨source, hsource, rfl⟩ := List.mem_map.mp hmem
        by_cases hbeyond : beyond frontiers source.1.time = true
        · rw [if_pos hbeyond] at hcount
          simp at hcount
        · rw [if_neg hbeyond]
          exact ⟨⟨source, hsource, rfl⟩, by simpa using hbeyond⟩
      · rintro ⟨⟨request, hrequest, rfl⟩, hbeyond⟩
        refine ⟨request, List.mem_filter.mpr ⟨List.mem_map.mpr ⟨request, hrequest, ?_⟩, ?_⟩, rfl⟩
        · rw [if_neg (by simp [hbeyond])]
        · exact List.of_mem_filter (p := fun x : Capability T × ℕ => decide (0 < x.2)) hrequest
    · simp only [PriorityQueue.mem_foldl_push, List.mem_map, List.mem_filter]
      constructor
      · rintro ⟨cap, ⟨request, ⟨hrequest, hbeyond⟩, rfl⟩ | hold, rfl⟩
        · exact Or.inr ⟨⟨request, hrequest, rfl⟩, hbeyond⟩
        · exact Or.inl ⟨cap, hold, rfl⟩
      · rintro (⟨cap, hold, rfl⟩ | ⟨⟨request, hrequest, rfl⟩, hbeyond⟩)
        · exact ⟨cap, Or.inr hold, rfl⟩
        · exact ⟨request.1, Or.inl ⟨request, ⟨hrequest, hbeyond⟩, rfl⟩, rfl⟩

/-- Looking for pending notifications keeps what waits, and makes available what it can where
    nothing is available. -/
theorem ready_spec (notificator : FrontierNotificator T) (frontiers : List (MutableAntichain T)) (time : T) :
    ((notificator.ready frontiers).Waiting time ↔ notificator.Waiting time) ∧
    ((notificator.ready frontiers).Pending time → notificator.Pending time) ∧
    ((notificator.ready frontiers).Available time →
      notificator.Available time ∨ (notificator.Pending time ∧ beyond frontiers time = true)) := by
  obtain ⟨hpending, havailable⟩ := notificator.make_available_spec frontiers time
  unfold ready
  split
  · refine ⟨?_, fun h => (hpending.mp h).1, havailable.mp⟩
    unfold Waiting
    rw [hpending, havailable]
    cases beyond frontiers time <;> simp [or_comm]
  · exact ⟨Iff.rfl, id, Or.inl⟩

/-- Where nothing can be made available, nothing was, and no pending time is past the frontiers. -/
theorem beyond_eq_false_of_ready {notificator : FrontierNotificator T} {frontiers : List (MutableAntichain T)}
    (h : ∀ time, ¬ (notificator.ready frontiers).Available time) {time : T}
    (hwaiting : notificator.Waiting time) : beyond frontiers time = false := by
  obtain ⟨hpending, havailable⟩ := notificator.make_available_spec frontiers time
  have hnone := h time
  unfold ready at h hnone
  split at hnone
  case isTrue =>
    rw [havailable, not_or] at hnone
    rcases hwaiting with hwait | hready
    · simpa using fun hbeyond => hnone.2 ⟨hwait, hbeyond⟩
    · exact absurd hready hnone.1
  case isFalse hsome =>
    -- then something was available
    rw [if_neg hsome] at h
    have hne : notificator.available.items ≠ [] := fun hnil => hsome (List.isEmpty_iff.mpr hnil)
    obtain ⟨cap, hcap⟩ := List.exists_mem_of_ne_nil _ hne
    exact absurd ⟨cap, hcap, rfl⟩ (h cap.time)

/-- What `next` does: it finds nothing available, or takes an earliest available time. -/
theorem next_cases (notificator : FrontierNotificator T) (frontiers : List (MutableAntichain T)) :
    (notificator.next frontiers = (none, notificator.ready frontiers) ∧
      ∀ time, ¬ (notificator.ready frontiers).Available time) ∨
    ∃ cap after, notificator.next frontiers = (some cap, after) ∧
      (notificator.ready frontiers).Available cap.time ∧
      (∀ time, (notificator.ready frontiers).Available time → sortsBefore cap.time time) ∧
      (∀ time, after.Pending time ↔ (notificator.ready frontiers).Pending time) ∧
      (∀ time, after.Available time → (notificator.ready frontiers).Available time) ∧
      (∀ time, (notificator.ready frontiers).Available time → cap.time = time ∨ after.Available time) ∧
      after.available.items.length < (notificator.ready frontiers).available.items.length := by
  unfold next
  generalize notificator.ready frontiers = ready
  cases hpop : ready.available.pop with
  | none =>
    left
    refine ⟨rfl, ?_⟩
    rintro time ⟨cap, hcap, -⟩
    rw [PriorityQueue.pop_eq_none.mp hpop] at hcap
    exact List.not_mem_nil hcap
  | some popped =>
    obtain ⟨front, rest⟩ := popped
    have hitems := PriorityQueue.items_of_pop hpop
    right
    refine ⟨front, _, rfl, ⟨front, by rw [hitems]; exact List.mem_cons_self, rfl⟩, ?_, fun _ => Iff.rfl, ?_, ?_, ?_⟩
    · rintro time ⟨cap, hcap, rfl⟩
      rw [hitems] at hcap
      rcases List.mem_cons.mp hcap with rfl | hrest
      · exact sortsBefore_refl _
      · exact (PriorityQueue.before_of_pop hpop hrest : earlier front cap)
    · rintro time ⟨cap, hcap, rfl⟩
      refine ⟨cap, ?_, rfl⟩
      rw [hitems]
      exact List.mem_cons_of_mem _ (PriorityQueue.mem_of_mem_pop_while hcap)
    · rintro time ⟨cap, hcap, rfl⟩
      rw [hitems] at hcap
      rcases List.mem_cons.mp hcap with rfl | hrest
      · exact Or.inl rfl
      · rcases PriorityQueue.mem_pop_while hrest fun cap => decide (cap = front) with hsame | hkept
        · exact Or.inl (congrArg Capability.time (of_decide_eq_true hsame)).symm
        · exact Or.inr ⟨cap, hkept, rfl⟩
    · rw [hitems]
      exact Nat.lt_succ_of_le (rest.length_pop_while_le _)

end FrontierNotificator

end Timely
