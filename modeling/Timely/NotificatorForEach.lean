/-
  Timely/NotificatorForEach.lean
  ==============================
  **When `for_each` delivers in order**
  (`timely/src/dataflow/operators/generic/notificator.rs`, `FrontierNotificator::for_each`).

  The loop takes the next available notification and hands it to a callback,
  which may request more.  These requests are pending until nothing is available
  any more.  So a time that is requested before a later one has been delivered is
  delivered after it, even if the frontiers are past both: the times are in order
  exactly if no callback requests a time that has to overtake an available one.
-/
import Timely.NotificatorRuns

set_option linter.unusedSectionVars false

namespace Timely

open Library

variable {T : Type} [PartialOrder T] [DecidableLE T] [DecidableEq T] [Ord T] [LinearExtension T]
variable [PriorityHeap (Capability T) earlier]

namespace FrontierNotificator

section ForEach

variable {State : Type} (logic : State → Capability T → State × List (Capability T))
  (frontiers : List (MutableAntichain T))

/-- One iteration: the next available capability is handed to the callback, which has a state of its
    own and requests notifications by `notify_at`. -/
def iteration (state : State × FrontierNotificator T) : Option (Capability T × State × FrontierNotificator T) :=
  match state.2.next frontiers with
  | (none, _) => none
  | (some cap, rest) => some (cap, (logic state.1 cap).1, (logic state.1 cap).2.foldl notify_at rest)

/-- The times that are delivered in a number of iterations. -/
def deliveries : ℕ → State × FrontierNotificator T → List T
  | 0, _ => []
  | iterations + 1, state =>
    match iteration logic frontiers state with
    | none => []
    | some (cap, after) => cap.time :: deliveries iterations after

/-- The times that `for_each` delivers, in a number of iterations: the callback may go on for ever. -/
def for_each (iterations : ℕ) (state : State) (notificator : FrontierNotificator T) : List T :=
  deliveries logic frontiers iterations (state, notificator.make_available frontiers)

/-- In a number of iterations, whenever the callback requests a time that the frontiers are past, all
    times that are still available sort before it. -/
def InTurn : ℕ → State × FrontierNotificator T → Prop
  | 0, _ => True
  | iterations + 1, state => ∀ cap rest, state.2.next frontiers = (some cap, rest) →
    (∀ requested ∈ (logic state.1 cap).2, beyond frontiers requested.time = true →
      ∀ time, rest.Available time → sortsBefore time requested.time) ∧
    InTurn iterations ((logic state.1 cap).1, (logic state.1 cap).2.foldl notify_at rest)

end ForEach

/-! ### One iteration -/

variable {State : Type} {logic : State → Capability T → State × List (Capability T)}
  {frontiers : List (MutableAntichain T)} {state : State} {notificator rest : FrontierNotificator T}
  {cap : Capability T}

/-- What the callback requests does not become available. -/
theorem items_foldl_notify_at (notificator : FrontierNotificator T) (caps : List (Capability T)) :
    (caps.foldl notify_at notificator).available = notificator.available := by
  induction caps generalizing notificator with
  | nil => rfl
  | cons cap caps ih => exact ih (notificator.notify_at cap)

theorem available_foldl_notify_at {caps : List (Capability T)} {time : T} :
    (caps.foldl notify_at notificator).Available time ↔ notificator.Available time := by
  unfold Available
  rw [items_foldl_notify_at]

theorem pending_foldl_notify_at {caps : List (Capability T)} {time : T} :
    (caps.foldl notify_at notificator).Pending time ↔
      notificator.Pending time ∨ ∃ requested ∈ caps, requested.time = time := by
  induction caps generalizing notificator with
  | nil => simp
  | cons cap caps ih => rw [List.foldl_cons, ih, pending_notify_at, List.exists_mem_cons_iff, or_assoc]

theorem deliveries_succ (iterations : ℕ) (h : notificator.next frontiers = (some cap, rest)) :
    deliveries logic frontiers (iterations + 1) (state, notificator) =
      cap.time :: deliveries logic frontiers iterations
        ((logic state cap).1, (logic state cap).2.foldl notify_at rest) := by
  simp only [deliveries, iteration, h]

theorem deliveries_of_none (iterations : ℕ) (h : notificator.next frontiers = (none, rest)) :
    deliveries logic frontiers iterations (state, notificator) = [] := by
  cases iterations with
  | zero => rfl
  | succ iterations => simp only [deliveries, iteration, h]

/-- What is delivered after an iteration is in order if all deliveries are. -/
theorem in_order_after (h : notificator.next frontiers = (some cap, rest))
    (hsorted : ∀ iterations, (deliveries logic frontiers iterations (state, notificator)).Pairwise sortsBefore)
    (iterations : ℕ) :
    (∀ time ∈ deliveries logic frontiers iterations
      ((logic state cap).1, (logic state cap).2.foldl notify_at rest), sortsBefore cap.time time) ∧
    (deliveries logic frontiers iterations
      ((logic state cap).1, (logic state cap).2.foldl notify_at rest)).Pairwise sortsBefore := by
  have hpair := hsorted (iterations + 1)
  rw [deliveries_succ iterations h] at hpair
  exact List.pairwise_cons.mp hpair

/-! ### What is available is delivered -/

/-- Some iteration delivers the time. -/
def Delivered (logic : State → Capability T → State × List (Capability T))
    (frontiers : List (MutableAntichain T)) (state : State × FrontierNotificator T) (time : T) : Prop :=
  ∃ iterations, time ∈ deliveries logic frontiers iterations state

theorem delivered_now (h : notificator.next frontiers = (some cap, rest)) :
    Delivered logic frontiers (state, notificator) cap.time :=
  ⟨1, by rw [deliveries_succ 0 h]; exact List.mem_cons_self⟩

theorem delivered_after {time : T} (h : notificator.next frontiers = (some cap, rest))
    (hafter : Delivered logic frontiers ((logic state cap).1, (logic state cap).2.foldl notify_at rest) time) :
    Delivered logic frontiers (state, notificator) time := by
  obtain ⟨iterations, hmem⟩ := hafter
  exact ⟨iterations + 1, by rw [deliveries_succ iterations h]; exact List.mem_cons_of_mem _ hmem⟩

/-- An available time is delivered. -/
theorem delivered_of_available {time : T} (h : notificator.Available time) :
    Delivered logic frontiers (state, notificator) time := by
  induction hsize : notificator.available.items.length using Nat.strong_induction_on
    generalizing notificator state with
  | _ size ih =>
    have hready : notificator.ready frontiers = notificator := by
      obtain ⟨cap, hcap, -⟩ := h
      exact ready_of_available frontiers (List.ne_nil_of_mem hcap)
    rcases notificator.next_cases frontiers with ⟨-, hnone⟩ | ⟨cap, rest, hnext, -, -, -, -, hkept, hshorter⟩
    · rw [hready] at hnone
      exact absurd h (hnone time)
    · rw [hready] at hkept hshorter
      rcases hkept time h with rfl | hleft
      · exact delivered_now hnext
      · exact delivered_after hnext
          (ih _ (hsize ▸ hshorter) (available_foldl_notify_at.mpr hleft) (by rw [items_foldl_notify_at]))

/-- A pending time that the frontiers are past is delivered, once nothing is available before. -/
theorem delivered_of_pending {time : T} (h : notificator.Pending time)
    (hbeyond : beyond frontiers time = true) : Delivered logic frontiers (state, notificator) time := by
  induction hsize : notificator.available.items.length using Nat.strong_induction_on
    generalizing notificator state with
  | _ size ih =>
    rcases notificator.next_cases frontiers with ⟨-, hnone⟩ | ⟨cap, rest, hnext, -, -, hpending, -, hkept, hshorter⟩
    · rw [beyond_eq_false_of_ready hnone (Or.inl h)] at hbeyond
      cases hbeyond
    · by_cases hsome : notificator.available.items = []
      · -- it becomes available now
        have hready : notificator.ready frontiers = notificator.make_available frontiers :=
          if_pos (List.isEmpty_iff.mpr hsome)
        rw [hready] at hkept
        rcases hkept time ((notificator.make_available_spec frontiers time).2.mpr (Or.inr ⟨h, hbeyond⟩)) with
          rfl | hleft
        · exact delivered_now hnext
        · exact delivered_after hnext (delivered_of_available (available_foldl_notify_at.mpr hleft))
      · rw [ready_of_available frontiers hsome] at hpending hshorter
        have hwait : ((logic state cap).2.foldl notify_at rest).Pending time :=
          pending_foldl_notify_at.mpr (Or.inl ((hpending time).mpr h))
        exact delivered_after hnext (ih _ (hsize ▸ hshorter) hwait (by rw [items_foldl_notify_at]))

/-- A pending time that the frontiers are past is delivered after every available time; so if the
    deliveries are in order, the available times sort before it. -/
theorem sortsBefore_of_in_order {early time : T}
    (hsorted : ∀ iterations, (deliveries logic frontiers iterations (state, notificator)).Pairwise sortsBefore)
    (hearly : notificator.Available early) (h : notificator.Pending time)
    (hbeyond : beyond frontiers time = true) : sortsBefore early time := by
  induction hsize : notificator.available.items.length using Nat.strong_induction_on
    generalizing notificator state with
  | _ size ih =>
    have hready : notificator.ready frontiers = notificator := by
      obtain ⟨cap, hcap, -⟩ := hearly
      exact ready_of_available frontiers (List.ne_nil_of_mem hcap)
    rcases notificator.next_cases frontiers with ⟨-, hnone⟩ | ⟨cap, rest, hnext, -, -, hpending, -, hkept, hshorter⟩
    · rw [hready] at hnone
      exact absurd hearly (hnone early)
    · rw [hready] at hpending hkept hshorter
      have hwait : ((logic state cap).2.foldl notify_at rest).Pending time :=
        pending_foldl_notify_at.mpr (Or.inl ((hpending time).mpr h))
      rcases hkept early hearly with rfl | hleft
      · obtain ⟨iterations, hmem⟩ := delivered_of_pending hwait hbeyond
        exact (in_order_after hnext hsorted iterations).1 time hmem
      · have hrest := fun iterations => (in_order_after hnext hsorted iterations).2
        exact ih _ (hsize ▸ hshorter) hrest (available_foldl_notify_at.mpr hleft) hwait
          (by rw [items_foldl_notify_at])

/-! ### The order of the deliveries -/

/-- If the deliveries are in order, then whatever the callback requests is in turn. -/
theorem inTurn_of_in_order
    (hsorted : ∀ iterations, (deliveries logic frontiers iterations (state, notificator)).Pairwise sortsBefore)
    (iterations : ℕ) : InTurn logic frontiers iterations (state, notificator) := by
  induction iterations generalizing state notificator with
  | zero => exact trivial
  | succ iterations ih =>
    intro cap rest hnext
    have hafter := fun iterations => (in_order_after hnext hsorted iterations).2
    refine ⟨fun requested hrequested hbeyond time hleft => ?_, ih hafter⟩
    have hwait : ((logic state cap).2.foldl notify_at rest).Pending requested.time :=
      pending_foldl_notify_at.mpr (Or.inr ⟨requested, hrequested, rfl⟩)
    exact sortsBefore_of_in_order hafter (available_foldl_notify_at.mpr hleft) hwait hbeyond

/-- Pending times that the frontiers are past sort after the available ones. -/
def PendingLater (frontiers : List (MutableAntichain T)) (notificator : FrontierNotificator T) : Prop :=
  ∀ time, notificator.Pending time → beyond frontiers time = true →
    ∀ early, notificator.Available early → sortsBefore early time

theorem PendingLater.ready (h : PendingLater frontiers notificator) :
    PendingLater frontiers (notificator.ready frontiers) := by
  unfold FrontierNotificator.ready
  split
  · intro time hpending hbeyond
    rw [((notificator.make_available_spec frontiers time).1.mp hpending).2] at hbeyond
    cases hbeyond
  · exact h

/-- If the callback requests in turn, the deliveries are in order, and none is before what all
    waiting times sort after. -/
theorem in_order_of_inTurn (hlogic : ∀ state cap, ∀ requested ∈ (logic state cap).2, cap.time ≤ requested.time)
    (hlater : PendingLater frontiers notificator) (iterations : ℕ)
    (hturn : InTurn logic frontiers iterations (state, notificator)) :
    (deliveries logic frontiers iterations (state, notificator)).Pairwise sortsBefore ∧
    ∀ low, (∀ time, notificator.Available time ∨ (notificator.Pending time ∧ beyond frontiers time = true) →
        sortsBefore low time) →
      ∀ time ∈ deliveries logic frontiers iterations (state, notificator), sortsBefore low time := by
  induction iterations generalizing state notificator with
  | zero => exact ⟨List.Pairwise.nil, fun _ _ _ hmem => absurd hmem List.not_mem_nil⟩
  | succ iterations ih =>
    rcases notificator.next_cases frontiers with ⟨hnext, -⟩ |
      ⟨cap, rest, hnext, hcap, hleast, hpending, hrest, -, -⟩
    · rw [deliveries_of_none _ hnext]
      exact ⟨List.Pairwise.nil, fun _ _ _ hmem => absurd hmem List.not_mem_nil⟩
    · obtain ⟨hrequests, hafter⟩ := hturn cap rest hnext
      have hready := hlater.ready
      have hlater' : PendingLater frontiers ((logic state cap).2.foldl notify_at rest) := by
        intro time hwait hbeyond early hearly
        rw [available_foldl_notify_at] at hearly
        rcases pending_foldl_notify_at.mp hwait with hold | ⟨requested, hrequested, rfl⟩
        · exact hready time ((hpending time).mp hold) hbeyond early (hrest early hearly)
        · exact hrequests requested hrequested hbeyond early hearly
      obtain ⟨hsorted, hlow⟩ := ih hlater' hafter
      -- all that follows sorts after what is delivered now
      have hnow := hlow cap.time fun time hwaiting => by
        rcases hwaiting with hearly | ⟨hwait, hbeyond⟩
        · exact hleast time (hrest time (available_foldl_notify_at.mp hearly))
        · rcases pending_foldl_notify_at.mp hwait with hold | ⟨requested, hrequested, rfl⟩
          · exact hready time ((hpending time).mp hold) hbeyond cap.time hcap
          · exact LinearExtension.isLE_of_le (hlogic state cap requested hrequested)
      rw [deliveries_succ iterations hnext]
      refine ⟨List.pairwise_cons.mpr ⟨hnow, hsorted⟩, fun low hbelow time hmem => ?_⟩
      have hfirst : sortsBefore low cap.time := hbelow cap.time ((notificator.ready_spec frontiers cap.time).2.2 hcap)
      rcases List.mem_cons.mp hmem with rfl | hmem
      · exact hfirst
      · exact sortsBefore_trans hfirst (hnow time hmem)

/-- `for_each` delivers in order exactly if, whenever the callback requests a time that the frontiers
    are past, all times that are still available sort before it. -/
theorem for_each_in_order_iff (logic : State → Capability T → State × List (Capability T))
    (hlogic : ∀ state cap, ∀ requested ∈ (logic state cap).2, cap.time ≤ requested.time)
    (frontiers : List (MutableAntichain T)) (state : State) (notificator : FrontierNotificator T) :
    (∀ iterations, (for_each logic frontiers iterations state notificator).Pairwise sortsBefore) ↔
      ∀ iterations, InTurn logic frontiers iterations (state, notificator.make_available frontiers) := by
  constructor
  · exact fun hsorted iterations => inTurn_of_in_order hsorted iterations
  · intro hturn iterations
    have hlater : PendingLater frontiers (notificator.make_available frontiers) := by
      intro time hpending hbeyond
      rw [((notificator.make_available_spec frontiers time).1.mp hpending).2] at hbeyond
      cases hbeyond
    exact (in_order_of_inTurn hlogic hlater iterations (hturn iterations)).1

/-- The callback requests in turn for ever if nothing is left after a delivery, and what it requests there
    is. -/
theorem inTurn_of_alone (cap : Capability T) (hnext : (notificator.next frontiers).1 = some cap)
    (halone : (notificator.next frontiers).2.available.items = [])
    (hafter : ∀ iterations, InTurn logic frontiers iterations
      ((logic state cap).1, (logic state cap).2.foldl notify_at (notificator.next frontiers).2)) (iterations : ℕ) :
    InTurn logic frontiers iterations (state, notificator) := by
  cases iterations with
  | zero => exact trivial
  | succ iterations =>
    intro cap' rest hdelivered
    dsimp only at hdelivered
    rw [hdelivered] at hnext halone hafter
    obtain rfl := Option.some.inj hnext
    refine ⟨fun _ _ _ time hleft => ?_, hafter iterations⟩
    obtain ⟨left, hmem, -⟩ := hleft
    rw [halone] at hmem
    exact absurd hmem List.not_mem_nil

theorem inTurn_of_none (hnext : (notificator.next frontiers).1 = none) (iterations : ℕ) :
    InTurn logic frontiers iterations (state, notificator) := by
  cases iterations with
  | zero => exact trivial
  | succ iterations =>
    intro cap rest hsome
    dsimp only at hsome
    rw [hsome] at hnext
    cases hnext

/-- A callback that requests 2 when it is handed 1. -/
def requests_two (state : Unit) (cap : Capability (Unsigned 64)) : Unit × List (Capability (Unsigned 64)) :=
  (state, if cap.time.val = 1 then [⟨⟨2, by decide⟩, cap.internal⟩] else [])

theorem le_of_requests_two (state : Unit) (cap : Capability (Unsigned 64)) :
    ∀ requested ∈ (requests_two state cap).2, cap.time ≤ requested.time := by
  intro requested hmem
  unfold requests_two at hmem
  dsimp only at hmem
  split at hmem
  case isTrue hone =>
    rw [List.mem_singleton.mp hmem, Fin.le_def, hone]
    exact Nat.le_succ 1
  case isFalse => exact absurd hmem List.not_mem_nil

/-- With 1 pending alone, it is handed 1, requests 2, and is handed 2 in turn. -/
theorem for_each_in_order_iff_example :
    for_each requests_two [MutableAntichain.new_bottom 5] 5 () (from_iter [⟨1, ⟨0, 0⟩⟩]) = [1, 2] ∧
    (for_each requests_two [MutableAntichain.new_bottom 5] 5 () (from_iter [⟨1, ⟨0, 0⟩⟩])).Pairwise sortsBefore := by
  refine ⟨by decide +kernel, ?_⟩
  refine (for_each_in_order_iff requests_two le_of_requests_two [MutableAntichain.new_bottom 5] () _).mpr
    (fun iterations => ?_) 5
  refine inTurn_of_alone ⟨1, ⟨0, 0⟩⟩ (by decide +kernel) (by decide +kernel) (fun iterations => ?_) iterations
  refine inTurn_of_alone ⟨2, ⟨0, 0⟩⟩ (by decide +kernel) (by decide +kernel) (fun iterations => ?_) iterations
  exact inTurn_of_none (by decide +kernel) iterations

/-- With 1 and 3 pending, and the input past all three, it is handed 2 after 3. -/
theorem for_each_out_of_order :
    (∀ state cap, ∀ requested ∈ (requests_two state cap).2, cap.time ≤ requested.time)
    ∧ ¬ ∀ iterations, (for_each requests_two [MutableAntichain.new_bottom 5] iterations ()
        (from_iter [⟨3, ⟨0, 0⟩⟩, ⟨1, ⟨0, 0⟩⟩])).Pairwise sortsBefore := by
  refine ⟨le_of_requests_two, fun hsorted => ?_⟩
  have hdelivered : for_each requests_two [MutableAntichain.new_bottom 5] 3 ()
      (from_iter [⟨3, ⟨0, 0⟩⟩, ⟨1, ⟨0, 0⟩⟩]) = [1, 3, 2] := by decide +kernel
  have hpair := hsorted 3
  rw [hdelivered] at hpair
  exact absurd hpair (by decide +kernel)

end FrontierNotificator

end Timely
