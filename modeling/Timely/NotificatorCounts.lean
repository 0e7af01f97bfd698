/-
  Timely/NotificatorCounts.lean
  =============================
  **Counts of notifications**
  (`timely/src/dataflow/operators/generic/notificator.rs`, `Notificator`).

  A pending request has a count, to which requests for the same time are added.
  An available one has none, and `next` returns each with the count 1.  So what
  is counted in the end falls short of what has been requested, by the pending
  requests that became available as one, and by the equal capabilities that were
  popped with another one.  Which capabilities for one time are next to each other
  in the heap is up to the heap.
-/
import Timely.NotificatorSessions

set_option linter.unusedSectionVars false

namespace Timely

open Library

variable {T : Type} [PartialOrder T] [DecidableLE T] [DecidableEq T] [Ord T] [LinearExtension T]
variable [PriorityHeap (Capability T) earlier]

namespace FrontierNotificator

/-! ### How often a time waits -/

/-- The counts of requests for `time`, together. -/
def countAt (time : T) (requests : List (Capability T × ℕ)) : ℕ :=
  ((requests.filter fun x => x.1.time = time).map Prod.snd).sum

/-- How many pending requests there are for `time`. -/
def pending_count (notificator : FrontierNotificator T) (time : T) : ℕ := countAt time notificator.pending

/-- How many available notifications there are for `time`. -/
def available_count (notificator : FrontierNotificator T) (time : T) : ℕ :=
  notificator.available.items.countP fun cap => cap.time = time

/-- How many notifications for `time` are pending or available. -/
def waiting_count (notificator : FrontierNotificator T) (time : T) : ℕ :=
  notificator.pending_count time + notificator.available_count time

theorem countAt_cons (time : T) (request : Capability T × ℕ) (requests : List (Capability T × ℕ)) :
    countAt time (request :: requests) =
      (if request.1.time = time then request.2 else 0) + countAt time requests := by
  unfold countAt
  by_cases h : request.1.time = time <;> simp [h]

theorem countAt_append (time : T) (requests more : List (Capability T × ℕ)) :
    countAt time (requests ++ more) = countAt time requests + countAt time more := by
  unfold countAt
  rw [List.filter_append, List.map_append, List.sum_append]

theorem countAt_perm {time : T} {requests others : List (Capability T × ℕ)} (h : requests.Perm others) :
    countAt time requests = countAt time others :=
  ((h.filter _).map _).sum_eq

/-- Requests with the count zero do not count. -/
theorem countAt_filter_pos (time : T) (requests : List (Capability T × ℕ)) :
    countAt time (requests.filter fun x => 0 < x.2) = countAt time requests := by
  induction requests with
  | nil => rfl
  | cons request requests ih =>
    rw [countAt_cons]
    by_cases hpos : 0 < request.2
    · rw [List.filter_cons_of_pos (by simpa using hpos), countAt_cons, ih]
    · rw [List.filter_cons_of_neg (by simpa using hpos), ih, Nat.eq_zero_of_not_pos hpos, ite_self, zero_add]

theorem countAt_pos {time : T} {requests : List (Capability T × ℕ)} (hcounted : ∀ request ∈ requests, 0 < request.2) :
    0 < countAt time requests ↔ ∃ request ∈ requests, request.1.time = time := by
  induction requests with
  | nil => simp [countAt]
  | cons request requests ih =>
    rw [List.forall_mem_cons] at hcounted
    rw [countAt_cons, List.exists_mem_cons_iff, ← ih hcounted.2]
    by_cases h : request.1.time = time
    · simp [h, Nat.add_pos_left hcounted.1]
    · simp [h]

/-! ### Consolidating requests -/

/-- Merging requests keeps the counts of all times. -/
theorem countAt_mergeFrom (time : T) (request : Capability T × ℕ) (rest : List (Capability T × ℕ)) :
    countAt time (mergeFrom request rest) = countAt time (request :: rest) := by
  induction rest generalizing request with
  | nil => rfl
  | cons next rest ih =>
    unfold mergeFrom
    by_cases hsame : request.1.time = next.1.time
    · rw [if_pos hsame, countAt_cons, ih, countAt_cons, countAt_cons, countAt_cons, hsame]
      split <;> omega
    · rw [if_neg hsame, countAt_cons, ih, ← countAt_cons]

theorem countAt_consolidated (time : T) (pending : List (Capability T × ℕ)) :
    countAt time (consolidated pending) = countAt time pending := by
  have hperm := List.perm_insertionSort (fun x y : Capability T × ℕ => sortsBefore x.1.time y.1.time) pending
  unfold consolidated
  rw [countAt_filter_pos, ← countAt_perm hperm]
  cases pending.insertionSort fun x y => sortsBefore x.1.time y.1.time with
  | nil => rfl
  | cons request rest => exact countAt_mergeFrom time request rest

/-- Merging sorted requests leaves at most one that counts for each time. -/
theorem countP_mergeFrom_le_one {request : Capability T × ℕ} {rest : List (Capability T × ℕ)}
    (hsorted : (request :: rest).Pairwise fun x y => sortsBefore x.1.time y.1.time)
    (hrequest : 0 < request.2) (hrest : ∀ other ∈ rest, 0 < other.2) (time : T) :
    ((mergeFrom request rest).filter fun x => 0 < x.2).countP (fun x => x.1.time = time) ≤ 1 := by
  induction rest generalizing request with
  | nil =>
    unfold mergeFrom
    exact (List.countP_le_length).trans (List.length_filter_le _ _)
  | cons next rest ih =>
    obtain ⟨hfirst, htail⟩ := List.pairwise_cons.mp hsorted
    rw [List.forall_mem_cons] at hrest
    unfold mergeFrom
    by_cases hsame : request.1.time = next.1.time
    · rw [if_pos hsame, List.filter_cons_of_neg (by simp)]
      exact ih (List.pairwise_cons.mpr (List.pairwise_cons.mp htail)) (Nat.add_pos_left hrest.1 _) hrest.2
    · rw [if_neg hsame, List.filter_cons_of_pos (by simpa using hrequest)]
      by_cases htime : request.1.time = time
      · -- then no later request is for this time
        have hnone : ¬ ∃ other ∈ next :: rest, other.1.time = time := by
          rintro ⟨other, hother, hlater⟩
          have hbetween : sortsBefore next.1.time other.1.time := by
            rcases List.mem_cons.mp hother with rfl | hmem
            · exact sortsBefore_refl _
            · exact List.rel_of_pairwise_cons htail hmem
          rw [hlater, ← htime] at hbetween
          exact hsame (sortsBefore_antisymm (hfirst next List.mem_cons_self) hbetween)
        rw [List.countP_cons, List.countP_eq_zero.mpr, if_pos (decide_eq_true htime)]
        intro other hother heq
        exact hnone ((exists_mem_mergeFrom hrest.1 hrest.2 time).mp ⟨other, hother, of_decide_eq_true heq⟩)
      · rw [List.countP_cons_of_neg (by simpa using htime)]
        exact ih htail hrest.1 hrest.2

/-- Consolidated requests for a time are one, if there are any. -/
theorem countP_consolidated {pending : List (Capability T × ℕ)} (hcounted : ∀ request ∈ pending, 0 < request.2)
    (time : T) :
    (consolidated pending).countP (fun x => x.1.time = time) = min 1 (countAt time pending) := by
  have hperm := List.perm_insertionSort (fun x y : Capability T × ℕ => sortsBefore x.1.time y.1.time) pending
  have hpos : 0 < (consolidated pending).countP (fun x => x.1.time = time) ↔ 0 < countAt time pending := by
    rw [countAt_pos hcounted, ← exists_mem_consolidated hcounted, List.countP_pos_iff]
    simp only [decide_eq_true_eq]
  have hle : (consolidated pending).countP (fun x => x.1.time = time) ≤ 1 := by
    have hsorted : (pending.insertionSort fun x y => sortsBefore x.1.time y.1.time).Pairwise
        fun x y => sortsBefore x.1.time y.1.time := by
      have : Std.Total (fun x y : Capability T × ℕ => sortsBefore x.1.time y.1.time) :=
        ⟨fun x y => sortsBefore_total x.1.time y.1.time⟩
      have : IsTrans (Capability T × ℕ) (fun x y => sortsBefore x.1.time y.1.time) :=
        ⟨fun _ _ _ h h' => sortsBefore_trans h h'⟩
      exact List.pairwise_insertionSort _ _
    unfold consolidated
    have hall : ∀ request ∈ pending.insertionSort fun x y => sortsBefore x.1.time y.1.time, 0 < request.2 :=
      fun request hrequest => hcounted request (hperm.mem_iff.mp hrequest)
    cases hcases : pending.insertionSort fun x y => sortsBefore x.1.time y.1.time with
    | nil => exact Nat.zero_le 1
    | cons request rest =>
      rw [hcases] at hsorted hall
      exact countP_mergeFrom_le_one hsorted (hall request List.mem_cons_self)
        (fun other hother => hall other (List.mem_cons_of_mem _ hother)) time
  omega

/-! ### What the calls do to the counts -/

theorem countP_foldl_push (time : T) (caps : List (Capability T)) (queue : PriorityQueue (Capability T) earlier) :
    (caps.foldl PriorityQueue.push queue).items.countP (fun cap => cap.time = time) =
      caps.countP (fun cap => cap.time = time) + queue.items.countP (fun cap => cap.time = time) := by
  induction caps generalizing queue with
  | nil => simp
  | cons cap caps ih =>
    rw [List.foldl_cons, ih, (queue.perm_push cap).countP_eq, List.countP_cons, List.countP_cons]
    omega

theorem waiting_count_notify_at (notificator : FrontierNotificator T) (cap : Capability T) (time : T) :
    (notificator.notify_at cap).waiting_count time =
      notificator.waiting_count time + if cap.time = time then 1 else 0 := by
  unfold waiting_count pending_count available_count notify_at
  rw [countAt_append, countAt_cons]
  simp only [countAt, List.filter_nil, List.map_nil, List.sum_nil]
  omega

theorem waiting_count_notify_at_frontiered (notificator : FrontierNotificator T) (cap : Capability T)
    (frontiers : List (MutableAntichain T)) (time : T) :
    (notificator.notify_at_frontiered cap frontiers).waiting_count time =
      notificator.waiting_count time + if cap.time = time then 1 else 0 := by
  rcases notificator.notify_at_frontiered_cases cap frontiers with ⟨-, heq⟩ | ⟨-, heq⟩
  · rw [heq]
    unfold waiting_count pending_count available_count
    dsimp only
    rw [(notificator.available.perm_push cap).countP_eq, List.countP_cons]
    simp only [decide_eq_true_eq]
    omega
  · rw [heq, waiting_count_notify_at]

/-- What `make_available` loses at `time`: it makes requests that are pending there available as one. -/
def surplus (notificator : FrontierNotificator T) (frontiers : List (MutableAntichain T)) (time : T) : ℕ :=
  if beyond frontiers time then notificator.pending_count time - 1 else 0

theorem countAt_cleared (frontiers : List (MutableAntichain T)) (time : T) (pending : List (Capability T × ℕ)) :
    countAt time (pending.map fun x => if beyond frontiers x.1.time then (x.1, 0) else x) =
      if beyond frontiers time then 0 else countAt time pending := by
  induction pending with
  | nil => simp [countAt]
  | cons request pending ih =>
    rw [List.map_cons, countAt_cons, countAt_cons, ih]
    by_cases htime : request.1.time = time
    · subst htime
      cases beyond frontiers request.1.time <;> simp
    · have hkept : (if beyond frontiers request.1.time then (request.1, 0) else request).1.time ≠ time := by
        split <;> exact htime
      rw [if_neg hkept, if_neg htime, zero_add, zero_add]

theorem countP_past (frontiers : List (MutableAntichain T)) (time : T) (pending : List (Capability T × ℕ)) :
    ((pending.filter fun x => beyond frontiers x.1.time).map Prod.fst).countP (fun cap => cap.time = time) =
      if beyond frontiers time then pending.countP (fun x => x.1.time = time) else 0 := by
  induction pending with
  | nil => simp
  | cons request pending ih =>
    by_cases htime : request.1.time = time
    · subst htime
      cases hbeyond : beyond frontiers request.1.time <;> simp [hbeyond] at ih ⊢ <;> exact ih
    · cases hkept : beyond frontiers request.1.time <;> simp [hkept, htime] at ih ⊢ <;> exact ih

theorem waiting_count_make_available (notificator : FrontierNotificator T)
    (frontiers : List (MutableAntichain T)) (time : T) :
    (notificator.make_available frontiers).waiting_count time + notificator.surplus frontiers time =
      notificator.waiting_count time := by
  unfold make_available surplus waiting_count pending_count available_count
  split
  case isTrue hempty => simp [List.isEmpty_iff.mp hempty, countAt]
  case isFalse =>
    dsimp only
    rw [countAt_filter_pos, countAt_cleared, countAt_consolidated, countP_foldl_push, countP_past,
      countP_consolidated notificator.counted]
    cases beyond frontiers time
    · simp
    · simp
      omega

/-- What `next` loses at `time` when it pops the available notifications: those that are equal to the
    first one and follow it. -/
def repeated (notificator : FrontierNotificator T) (time : T) : ℕ :=
  match notificator.available.items with
  | [] => 0
  | front :: rest => if front.time = time then (rest.takeWhile fun cap => cap = front).length else 0

theorem eq_of_mem_takeWhile {front cap : Capability T} {rest : List (Capability T)}
    (h : cap ∈ rest.takeWhile fun cap => cap = front) : cap = front := by
  have hcondition := List.mem_takeWhile_imp h
  exact of_decide_eq_true hcondition

/-- The notifications that are popped together are all for one time. -/
theorem countP_takeWhile (front : Capability T) (rest : List (Capability T)) (time : T) :
    (rest.takeWhile fun cap => cap = front).countP (fun cap => cap.time = time) =
      if front.time = time then (rest.takeWhile fun cap => cap = front).length else 0 := by
  split
  case isTrue hsame =>
    refine List.countP_eq_length.mpr fun cap hcap => ?_
    rw [eq_of_mem_takeWhile hcap]
    exact decide_eq_true hsame
  case isFalse hother =>
    refine List.countP_eq_zero.mpr fun cap hcap => ?_
    rw [eq_of_mem_takeWhile hcap]
    simpa using hother

/-- What `next` delivers for `time` counts once. -/
def delivered_count (time : T) (delivered : Option (Capability T)) : ℕ :=
  delivered.toList.countP fun cap => cap.time = time

theorem waiting_count_next (notificator : FrontierNotificator T) (frontiers : List (MutableAntichain T))
    (time : T) :
    (notificator.next frontiers).2.waiting_count time + delivered_count time (notificator.next frontiers).1
        + (notificator.ready frontiers).repeated time =
      (notificator.ready frontiers).waiting_count time := by
  unfold next
  generalize notificator.ready frontiers = ready
  cases hpop : ready.available.pop with
  | none =>
    have hitems := PriorityQueue.pop_eq_none.mp hpop
    simp [repeated, hitems, delivered_count]
  | some popped =>
    obtain ⟨front, rest⟩ := popped
    have hitems := PriorityQueue.items_of_pop hpop
    have hsplit := List.takeWhile_append_dropWhile (p := fun cap => decide (cap = front)) (l := rest.items)
    have hcount : rest.items.countP (fun cap => cap.time = time) =
        (rest.items.takeWhile fun cap => cap = front).countP (fun cap => cap.time = time)
          + (rest.items.dropWhile fun cap => cap = front).countP (fun cap => cap.time = time) := by
      rw [← List.countP_append, hsplit]
    unfold waiting_count pending_count available_count repeated delivered_count
    simp only [hitems, PriorityQueue.items_pop_while, Option.toList_some, List.countP_cons, List.countP_nil, decide_eq_true_eq]
    rw [hcount, countP_takeWhile]
    split <;> omega

end FrontierNotificator

namespace Notificator

/-! ### Sessions and requests before them -/

/-- A call, with the frontiers of a session that is opened and what `next` returns. -/
inductive Call (T : Type) [Ord T] where
  | notify_before (cap : Capability T)
  | monotonic (frontiers : List (MutableAntichain T))
  | notify_at (cap : Capability T)
  | next (delivered : Option (Capability T × ℕ))

/-- The capability for which a call requests a notification. -/
def Call.requested : Call T → Option (Capability T)
  | .notify_before cap | .notify_at cap => some cap
  | .monotonic _ | .next _ => none

/-- The notification that a call delivers, with its count. -/
def Call.delivered : Call T → Option (Capability T × ℕ)
  | .next delivered => delivered
  | .notify_before _ | .monotonic _ | .notify_at _ => none

/-- A request that is made of the notificator itself, the opening of a session with frontiers that
    have advanced, and a request and a call of `next` in the session. -/
inductive Step : Notificator T → Call T → Notificator T → Prop
  | notify_before {notificator : Notificator T} (cap : Capability T) :
      Step notificator (.notify_before cap) { notificator with inner := notificator.inner.notify_at cap }
  | monotonic {notificator : Notificator T} {later : List (MutableAntichain T)} :
      Advances notificator.frontiers later →
      Step notificator (.monotonic later) (Notificator.new later notificator.inner)
  | notify_at {notificator : Notificator T} (cap : Capability T) :
      Step notificator (.notify_at cap) (notificator.notify_at cap)
  | next {notificator : Notificator T} : Step notificator (.next notificator.next.1) notificator.next.2

/-- How often a notification at `time` is requested. -/
def request_count (calls : List (Call T)) (time : T) : ℕ :=
  (calls.filterMap Call.requested).countP fun cap => cap.time = time

/-- The counts that are returned for `time`, together. -/
def returned_count (calls : List (Call T)) (time : T) : ℕ :=
  FrontierNotificator.countAt time (calls.filterMap Call.delivered)

/-! ### What is lost -/

/-- For each time that the frontiers are past, there is at most one pending request. -/
def Single (inner : FrontierNotificator T) (frontiers : List (MutableAntichain T)) : Prop :=
  ∀ time, beyond frontiers time = true → inner.pending_count time ≤ 1

/-- The first available notification is not followed by an equal one: the heap would not return one if it
    were asked again. -/
def Unrepeated (inner : FrontierNotificator T) : Prop :=
  ∀ front rest, inner.available.items = front :: rest → rest.head? ≠ some front

/-- A call that makes pending requests available finds a single one for each time, and a call of
    `next` finds no two equal notifications that come first. -/
def Lossless (notificator : Notificator T) : Call T → Prop
  | .notify_before _ | .notify_at _ => True
  | .monotonic later => Single notificator.inner later
  | .next _ =>
    (notificator.inner.available.is_empty = true → Single notificator.inner notificator.frontiers) ∧
      Unrepeated (notificator.inner.ready notificator.frontiers)

/-- What a call loses at `time`. -/
def lost (notificator : Notificator T) (time : T) : Call T → ℕ
  | .notify_before _ | .notify_at _ => 0
  | .monotonic later => notificator.inner.surplus later time
  | .next _ =>
    (if notificator.inner.available.is_empty then notificator.inner.surplus notificator.frontiers time else 0)
      + (notificator.inner.ready notificator.frontiers).repeated time

theorem single_iff {inner : FrontierNotificator T} {frontiers : List (MutableAntichain T)} :
    Single inner frontiers ↔ ∀ time, inner.surplus frontiers time = 0 := by
  unfold Single FrontierNotificator.surplus
  refine forall_congr' fun time => ?_
  cases beyond frontiers time
  · simp
  · simp [Nat.sub_eq_zero_iff_le]

theorem unrepeated_iff {inner : FrontierNotificator T} :
    Unrepeated inner ↔ ∀ time, inner.repeated time = 0 := by
  unfold Unrepeated FrontierNotificator.repeated
  cases hitems : inner.available.items with
  | nil => simp
  | cons front rest =>
    constructor
    · intro h time
      have hhead := h front rest rfl
      cases rest with
      | nil => simp
      | cons second rest =>
        have hother : second ≠ front := fun heq => hhead (by rw [heq]; rfl)
        simp [hother]
    · rintro h _ _ ⟨⟩ hhead
      have hnone := h front.time
      cases rest with
      | nil => cases hhead
      | cons second rest =>
        cases Option.some.inj hhead
        simp at hnone

theorem lossless_iff {notificator : Notificator T} {call : Call T} :
    notificator.Lossless call ↔ ∀ time, notificator.lost time call = 0 := by
  cases call with
  | notify_before cap => simp [Lossless, lost]
  | notify_at cap => simp [Lossless, lost]
  | monotonic later => exact single_iff
  | next delivered =>
    unfold Lossless lost
    simp only [single_iff, unrepeated_iff, Nat.add_eq_zero_iff, forall_and]
    refine and_congr ?_ Iff.rfl
    cases notificator.inner.available.is_empty <;> simp

/-! ### Over whole runs -/

variable {before after start reached : Notificator T} {call : Call T} {calls : List (Call T)}

theorem request_count_snoc (calls : List (Call T)) (call : Call T) (time : T) :
    request_count (calls ++ [call]) time = request_count calls time + request_count [call] time := by
  unfold request_count
  rw [List.filterMap_append, List.countP_append]

theorem returned_count_snoc (calls : List (Call T)) (call : Call T) (time : T) :
    returned_count (calls ++ [call]) time = returned_count calls time + returned_count [call] time := by
  unfold returned_count
  rw [List.filterMap_append, FrontierNotificator.countAt_append]

theorem request_count_singleton {cap : Capability T} (h : call.requested = some cap) (time : T) :
    request_count [call] time = if cap.time = time then 1 else 0 := by
  unfold request_count
  rw [List.filterMap_cons_some h, List.countP_cons]
  simp

/-- After a call, what waits, is returned and is lost is what waited and is requested. -/
theorem Step.balance (hstep : Step before call after) (time : T) :
    after.inner.waiting_count time + returned_count [call] time + before.lost time call =
      before.inner.waiting_count time + request_count [call] time := by
  cases hstep with
  | notify_before cap =>
    rw [request_count_singleton rfl]
    exact before.inner.waiting_count_notify_at cap time
  | notify_at cap =>
    rw [request_count_singleton rfl]
    exact before.inner.waiting_count_notify_at_frontiered cap before.frontiers time
  | @monotonic later hadvances =>
    exact before.inner.waiting_count_make_available later time
  | next =>
    have hnext := before.inner.waiting_count_next before.frontiers time
    have hready : (before.inner.ready before.frontiers).waiting_count time
        + (if before.inner.available.is_empty then before.inner.surplus before.frontiers time else 0) =
        before.inner.waiting_count time := by
      unfold FrontierNotificator.ready
      split
      · exact before.inner.waiting_count_make_available before.frontiers time
      · rfl
    have hreturned : returned_count [.next before.next.1] time =
        FrontierNotificator.delivered_count time (before.inner.next before.frontiers).1 := by
      unfold returned_count FrontierNotificator.delivered_count Notificator.next
      cases (before.inner.next before.frontiers).1 with
      | none => rfl
      | some cap =>
        change FrontierNotificator.countAt time [(cap, 1)] = _
        rw [FrontierNotificator.countAt_cons]
        simp [FrontierNotificator.countAt]
    rw [hreturned]
    change (before.inner.next before.frontiers).2.waiting_count time + _ + _ = _ + 0
    unfold lost
    dsimp only
    omega

/-- In a run no more can wait and be returned than has been requested. -/
theorem waiting_count_of_run (hrun : Run Step start calls reached) (time : T) :
    reached.inner.waiting_count time + returned_count calls time ≤
      start.inner.waiting_count time + request_count calls time := by
  refine hrun.invariant (P := fun calls reached => reached.inner.waiting_count time + returned_count calls time ≤
    start.inner.waiting_count time + request_count calls time) le_rfl ?_
  intro calls before call after hbefore hstep
  have hbalance := hstep.balance time
  rw [returned_count_snoc, request_count_snoc]
  omega

/-- A step that loses nothing. -/
def LosslessStep (before : Notificator T) (call : Call T) (after : Notificator T) : Prop :=
  Step before call after ∧ before.Lossless call

/-- A run conserves the counts of all times exactly if no step loses any. -/
theorem conserved_iff_of_run (hrun : Run Step start calls reached) :
    (∀ time, reached.inner.waiting_count time + returned_count calls time =
      start.inner.waiting_count time + request_count calls time) ↔ Run LosslessStep start calls reached := by
  constructor
  · intro hconserved
    induction hrun with
    | nil => exact Run.nil
    | @snoc calls before after call hbefore hstep ih =>
      -- what is lost anywhere is not made up for later
      have heach : ∀ time, before.lost time call = 0 ∧
          before.inner.waiting_count time + returned_count calls time =
            start.inner.waiting_count time + request_count calls time := by
        intro time
        have hsame := hconserved time
        have hle := waiting_count_of_run hbefore time
        have hbalance := hstep.balance time
        rw [returned_count_snoc, request_count_snoc] at hsame
        omega
      exact (ih fun time => (heach time).2).snoc ⟨hstep, lossless_iff.mpr fun time => (heach time).1⟩
  · intro hlossless time
    refine hlossless.invariant (P := fun calls reached =>
      reached.inner.waiting_count time + returned_count calls time =
        start.inner.waiting_count time + request_count calls time) rfl ?_
    rintro calls before call after hbefore ⟨hstep, hnone⟩
    have hbalance := hstep.balance time
    rw [lossless_iff.mp hnone time] at hbalance
    rw [returned_count_snoc, request_count_snoc]
    omega

/-- A notificator with initial capabilities, before the first session. -/
def of_iter (iter : List (Capability T)) (inputs : List (MutableAntichain T)) : Notificator T :=
  ⟨inputs, FrontierNotificator.from_iter iter⟩

theorem waiting_count_of_iter (iter : List (Capability T)) (inputs : List (MutableAntichain T)) (time : T) :
    (of_iter iter inputs).inner.waiting_count time = iter.countP fun cap => cap.time = time := by
  unfold FrontierNotificator.waiting_count FrontierNotificator.pending_count
    FrontierNotificator.available_count of_iter FrontierNotificator.from_iter
  induction iter with
  | nil => simp [FrontierNotificator.countAt]
  | cons cap iter ih =>
    dsimp only at ih ⊢
    rw [List.map_cons, FrontierNotificator.countAt_cons, List.countP_cons, ← ih]
    simp only [decide_eq_true_eq]
    omega

/-- Once `next` finds nothing, and the frontiers are past all that has been requested, nothing waits. -/
theorem nothing_waits {earlier_calls : List (Call T)} (hrun : Run Step start (earlier_calls ++ [.next none]) reached)
    (hpast : ∀ time, 0 < start.inner.waiting_count time + request_count earlier_calls time →
      beyond reached.frontiers time = true) (time : T) :
    reached.inner.waiting_count time = 0 := by
  have hle := waiting_count_of_run hrun time
  obtain ⟨before, -, hlast⟩ := hrun.of_snoc
  generalize hcall : (.next none : Call T) = call at hlast
  cases hlast with
  | notify_before cap => cases hcall
  | monotonic hadvances => cases hcall
  | notify_at cap => cases hcall
  | next =>
    have hnone : (before.inner.next before.frontiers).1 = none :=
      Option.map_eq_none_iff.mp (Call.next.inj hcall).symm
    obtain ⟨havailable, hpending⟩ :=
      FrontierNotificator.exhausted_of_next
        (Prod.ext hnone rfl : before.inner.next before.frontiers = (none, before.next.2.inner))
    by_contra hwaits
    rw [request_count_snoc] at hle
    have hrequested : beyond before.frontiers time = true := hpast time (by
      have hzero : request_count [(.next none : Call T)] time = 0 := rfl
      omega)
    have hcount : before.next.2.inner.available_count time = 0 :=
      List.countP_eq_zero.mpr fun cap hcap heq => havailable time ⟨cap, hcap, of_decide_eq_true heq⟩
    have hmore : 0 < before.next.2.inner.pending_count time := by
      unfold FrontierNotificator.waiting_count at hwaits
      omega
    rw [hpending time ((FrontierNotificator.countAt_pos before.next.2.inner.counted).mp hmore)] at hrequested
    cases hrequested

/-- When all that has been requested is past the frontiers, and `next` has been drained, the counts
    returned for each time add up to the requests for it exactly if no call has lost any: each found a
    single request for the times it made available, and none equal to the one it delivered. -/
theorem counts_conserved_iff (iter : List (Capability T)) (inputs : List (MutableAntichain T))
    {earlier_calls : List (Call T)} (hrun : Run Step (of_iter iter inputs) (earlier_calls ++ [.next none]) reached)
    (hpast : ∀ time, 0 < iter.countP (fun cap => cap.time = time) + request_count earlier_calls time →
      beyond reached.frontiers time = true) :
    (∀ time, returned_count (earlier_calls ++ [.next none]) time =
      iter.countP (fun cap => cap.time = time) + request_count earlier_calls time) ↔
      Run LosslessStep (of_iter iter inputs) (earlier_calls ++ [.next none]) reached := by
  rw [← conserved_iff_of_run hrun]
  refine forall_congr' fun time => ?_
  have hnone := nothing_waits hrun (fun time h => hpast time (waiting_count_of_iter iter inputs time ▸ h)) time
  have hzero : request_count [(.next none : Call T)] time = 0 := rfl
  rw [waiting_count_of_iter, hnone, request_count_snoc, hzero, Nat.zero_add, Nat.add_zero]

theorem Step.next_of (delivered : Option (Capability T × ℕ)) (h : before.next.1 = delivered) :
    Step before (.next delivered) before.next.2 := by
  rw [← h]
  exact .next

/-- A session whose frontiers are past 3 delivers a request for it. -/
theorem counts_conserved_iff_example : ∃ calls, ∃ reached : Notificator (Unsigned 64),
    Run Step (of_iter [⟨3, ⟨0, 0⟩⟩] [MutableAntichain.new_bottom 0]) (calls ++ [.next none]) reached
    ∧ Run LosslessStep (of_iter [⟨3, ⟨0, 0⟩⟩] [MutableAntichain.new_bottom 0]) (calls ++ [.next none]) reached := by
  have hadvances : Advances [MutableAntichain.new_bottom (0 : Unsigned 64)] [MutableAntichain.new_bottom 5] :=
    List.Forall₂.cons (fun time _ => ⟨0, List.mem_singleton_self _, Fin.zero_le time⟩) List.Forall₂.nil
  have hopened : Run Step (of_iter [⟨3, ⟨0, 0⟩⟩] [MutableAntichain.new_bottom (0 : Unsigned 64)]) _ _ :=
    Run.nil.snoc (.monotonic hadvances)
  have hfirst := hopened.snoc (Step.next_of (some (⟨3, ⟨0, 0⟩⟩, 1)) (by decide +kernel))
  have hrun := hfirst.snoc (Step.next_of none (by decide +kernel))
  refine ⟨_, _, hrun, (counts_conserved_iff _ _ hrun fun time hrequested => ?_).mp fun time => ?_⟩
  · have hthree : time = 3 := by
      by_contra hother
      simp [request_count, Call.requested, Ne.symm hother] at hrequested
    rw [hthree]
    decide +kernel
  · simp [returned_count, request_count, List.filterMap_cons, Call.requested, Call.delivered,
      FrontierNotificator.countAt, List.filter_cons]
    split <;> rfl

/-- Two requests for 3 in a session that is not past it, which become available as one: the counts
    returned add up to one. -/
theorem counts_not_conserved : ∃ calls, ∃ reached : Notificator (Unsigned 64),
    Run Step (of_iter [] [MutableAntichain.new_bottom 0]) (calls ++ [.next none]) reached
    ∧ (∀ time, 0 < request_count calls time → beyond reached.frontiers time = true)
    ∧ request_count calls 3 = 2
    ∧ returned_count (calls ++ [.next none]) 3 = 1 := by
  have hadvances : Advances [MutableAntichain.new_bottom (0 : Unsigned 64)] [MutableAntichain.new_bottom 5] :=
    List.Forall₂.cons (fun time _ => ⟨0, List.mem_singleton_self _, Fin.zero_le time⟩) List.Forall₂.nil
  have hopened : Run Step (of_iter [] [MutableAntichain.new_bottom (0 : Unsigned 64)]) _ _ :=
    Run.nil.snoc (.monotonic (Advances.refl _))
  have hrequests := (hopened.snoc (.notify_at ⟨3, ⟨0, 0⟩⟩)).snoc (.notify_at ⟨3, ⟨0, 0⟩⟩)
  have hpast := hrequests.snoc (.monotonic hadvances)
  have hfirst := hpast.snoc (Step.next_of (some (⟨3, ⟨0, 0⟩⟩, 1)) (by decide +kernel))
  have hrun := hfirst.snoc (Step.next_of none (by decide +kernel))
  refine ⟨_, _, hrun, fun time hrequested => ?_, by decide +kernel, by decide +kernel⟩
  have hthree : time = 3 := by
    by_contra hother
    simp [request_count, Call.requested, Ne.symm hother] at hrequested
  rw [hthree]
  decide +kernel

end Notificator

end Timely
