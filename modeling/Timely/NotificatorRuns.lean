/-
  Timely/NotificatorRuns.lean
  ===========================
  **Notifications are safe and not lost**
  (`timely/src/dataflow/operators/generic/notificator.rs`, `FrontierNotificator`).

  A notificator is called in any order, with the frontiers of the inputs, which
  only advance from one call to the next.  A `for_each` is such a sequence of
  calls (`make_available`, and then `next` until nothing is available, with what
  its callback calls in between), and so is a session (`make_available`, and then
  `notify_at_frontiered` and `next` with the frontiers of the session).

  What is available is past the frontiers of some earlier call, and so past those
  of all later ones.  What has been requested waits until it is delivered.
-/
import Timely.Notificator
import Timely.Library.Run

set_option linter.unusedSectionVars false

namespace Timely

open Library

variable {T : Type} [PartialOrder T] [DecidableLE T] [DecidableEq T] [Ord T] [LinearExtension T]
variable [PriorityHeap (Capability T) earlier]

/-! ### Frontiers that advance -/

/-- Each element of a later frontier is in advance of an element of the frontier before. -/
def Advances (frontiers later : List (MutableAntichain T)) : Prop :=
  List.Forall₂ (fun f f' : MutableAntichain T => ∀ time ∈ f'.frontier, ∃ least ∈ f.frontier, least ≤ time)
    frontiers later

theorem Advances.refl (frontiers : List (MutableAntichain T)) : Advances frontiers frontiers := by
  unfold Advances
  rw [List.forall₂_same]
  exact fun _ _ time htime => ⟨time, htime, le_rfl⟩

theorem beyond_iff {frontiers : List (MutableAntichain T)} {time : T} :
    beyond frontiers time = true ↔ ∀ f ∈ frontiers, ∀ least ∈ f.frontier, ¬ least ≤ time := by
  simp [beyond, MutableAntichain.less_equal]

/-- What the frontiers are past, they stay past. -/
theorem Advances.beyond {frontiers later : List (MutableAntichain T)} (h : Advances frontiers later)
    {time : T} (hbeyond : beyond frontiers time = true) : beyond later time = true := by
  rw [beyond_iff] at hbeyond ⊢
  induction h with
  | nil => exact fun _ hmem => absurd hmem List.not_mem_nil
  | cons hfirst _ ih =>
    rw [List.forall_mem_cons] at hbeyond ⊢
    refine ⟨fun lower hlower hle => ?_, ih hbeyond.2⟩
    obtain ⟨least, hleast, hbelow⟩ := hfirst lower hlower
    exact hbeyond.1 least hleast (hbelow.trans hle)

/-- Being past a time is being past all times before it. -/
theorem beyond_of_le {frontiers : List (MutableAntichain T)} {early late : T} (hle : early ≤ late)
    (hbeyond : beyond frontiers late = true) : beyond frontiers early = true := by
  rw [beyond_iff] at hbeyond ⊢
  exact fun f hf least hleast hbelow => hbeyond f hf least hleast (hbelow.trans hle)

namespace FrontierNotificator

/-! ### Calls -/

/-- A call of a method, with the frontiers it is given and what `next` returns. -/
inductive Call (T : Type) [Ord T] where
  | notify_at (cap : Capability T)
  | notify_at_frontiered (cap : Capability T) (frontiers : List (MutableAntichain T))
  | make_available (frontiers : List (MutableAntichain T))
  | next (frontiers : List (MutableAntichain T)) (delivered : Option (Capability T))

/-- The capability for which a call requests a notification. -/
def Call.requested : Call T → Option (Capability T)
  | .notify_at cap | .notify_at_frontiered cap _ => some cap
  | .make_available _ | .next _ _ => none

/-- The capability that a call delivers. -/
def Call.delivered : Call T → Option (Capability T)
  | .next _ delivered => delivered
  | _ => none

/-- Some call delivers a capability at `time`. -/
def Delivers (calls : List (Call T)) (time : T) : Prop :=
  ∃ call ∈ calls, ∃ cap, call.delivered = some cap ∧ cap.time = time

/-- A call changes the notificator; the frontiers it is given are those from now on. -/
inductive Step : FrontierNotificator T × List (MutableAntichain T) → Call T →
    FrontierNotificator T × List (MutableAntichain T) → Prop
  | notify_at {notificator : FrontierNotificator T} {frontiers : List (MutableAntichain T)}
      (cap : Capability T) :
      Step (notificator, frontiers) (.notify_at cap) (notificator.notify_at cap, frontiers)
  | notify_at_frontiered {notificator : FrontierNotificator T}
      {frontiers later : List (MutableAntichain T)} (cap : Capability T) : Advances frontiers later →
      Step (notificator, frontiers) (.notify_at_frontiered cap later)
        (notificator.notify_at_frontiered cap later, later)
  | make_available {notificator : FrontierNotificator T} {frontiers later : List (MutableAntichain T)} :
      Advances frontiers later →
      Step (notificator, frontiers) (.make_available later) (notificator.make_available later, later)
  | next {notificator : FrontierNotificator T} {frontiers later : List (MutableAntichain T)} :
      Advances frontiers later →
      Step (notificator, frontiers) (.next later (notificator.next later).1)
        ((notificator.next later).2, later)

/-! ### What a call does to a time -/

/-- After a call a time is available only if the frontiers are past it, where this was so before. -/
def Past (state : FrontierNotificator T × List (MutableAntichain T)) : Prop :=
  ∀ time, state.1.Available time → beyond state.2 time = true

theorem past_ready {notificator : FrontierNotificator T} {frontiers later : List (MutableAntichain T)}
    (h : Past (notificator, frontiers)) (hadvances : Advances frontiers later) :
    Past (notificator.ready later, later) := by
  intro time havailable
  rcases (notificator.ready_spec later time).2.2 havailable with hold | ⟨-, hbeyond⟩
  · exact hadvances.beyond (h time hold)
  · exact hbeyond

variable {before after : FrontierNotificator T × List (MutableAntichain T)} {call : Call T}

theorem Past.step (h : Past before) (hstep : Step before call after) :
    Past after ∧ ∀ frontiers cap, call = .next frontiers (some cap) → beyond frontiers cap.time = true := by
  cases hstep with
  | notify_at cap => exact ⟨h, fun _ _ hnext => by cases hnext⟩
  | @notify_at_frontiered notificator frontiers later cap hadvances =>
    refine ⟨fun time havailable => ?_, fun _ _ hnext => by cases hnext⟩
    rcases notificator.notify_at_frontiered_cases cap later with ⟨hbeyond, heq⟩ | ⟨-, heq⟩
    · rw [heq, available_push] at havailable
      rcases havailable with hold | hnew
      · exact hadvances.beyond (h time hold)
      · exact hnew ▸ hbeyond
    · rw [heq, available_notify_at] at havailable
      exact hadvances.beyond (h time havailable)
  | @make_available notificator frontiers later hadvances =>
    refine ⟨fun time havailable => ?_, fun _ _ hnext => by cases hnext⟩
    rcases (notificator.make_available_spec later time).2.mp havailable with hold | ⟨-, hbeyond⟩
    · exact hadvances.beyond (h time hold)
    · exact hbeyond
  | @next notificator frontiers later hadvances =>
    have hready := past_ready h hadvances
    rcases notificator.next_cases later with ⟨heq, -⟩ | ⟨cap, rest, heq, hcap, -, -, hrest, -, -⟩
    · rw [heq]
      exact ⟨hready, fun _ _ hnext => by cases hnext⟩
    · rw [heq]
      refine ⟨fun time havailable => hready time (hrest time havailable), ?_⟩
      rintro _ _ ⟨⟩
      exact hready _ hcap

/-- What waits keeps waiting until it is delivered. -/
theorem Step.waiting (hstep : Step before call after) {time : T} (h : before.1.Waiting time) :
    after.1.Waiting time ∨ Delivers [call] time := by
  cases hstep with
  | notify_at cap =>
    exact Or.inl (h.imp_left fun hpending => (pending_notify_at _ cap time).mpr (Or.inl hpending))
  | @notify_at_frontiered notificator frontiers later cap hadvances =>
    left
    rcases notificator.notify_at_frontiered_cases cap later with ⟨-, heq⟩ | ⟨-, heq⟩
    · rw [heq]
      exact h.imp_right fun havailable => (available_push _ cap time).mpr (Or.inl havailable)
    · rw [heq]
      exact h.imp_left fun hpending => (pending_notify_at _ cap time).mpr (Or.inl hpending)
  | @make_available notificator frontiers later hadvances =>
    left
    obtain ⟨hpending, havailable⟩ := notificator.make_available_spec later time
    unfold Waiting
    rw [hpending, havailable]
    rcases h with hwait | hready
    · cases hbeyond : beyond later time with
      | true => exact Or.inr (Or.inr ⟨hwait, rfl⟩)
      | false => exact Or.inl ⟨hwait, rfl⟩
    · exact Or.inr (Or.inl hready)
  | @next notificator frontiers later hadvances =>
    have hready := (notificator.ready_spec later time).1.mpr h
    rcases notificator.next_cases later with ⟨heq, -⟩ | ⟨cap, rest, heq, -, -, hpending, -, hkept, -⟩
    · rw [heq]
      exact Or.inl hready
    · rw [heq]
      rcases hready with hwait | havailable
      · exact Or.inl (Or.inl ((hpending time).mpr hwait))
      · rcases hkept time havailable with hsame | hrest
        · exact Or.inr ⟨_, List.mem_singleton_self _, cap, rfl, hsame⟩
        · exact Or.inl (Or.inr hrest)

theorem delivers_singleton {time : T} :
    Delivers [call] time ↔ ∃ cap, call.delivered = some cap ∧ cap.time = time := by
  simp [Delivers]

theorem delivers_append {calls more : List (Call T)} {time : T} :
    Delivers (calls ++ more) time ↔ Delivers calls time ∨ Delivers more time := by
  simp [Delivers, or_and_right, exists_or]

/-- What waits, or is delivered, has been waiting or is requested. -/
theorem Step.requested (hstep : Step before call after) {time : T}
    (h : after.1.Waiting time ∨ Delivers [call] time) :
    before.1.Waiting time ∨ ∃ cap, call.requested = some cap ∧ cap.time = time := by
  rw [delivers_singleton] at h
  cases hstep with
  | notify_at cap =>
    rcases h with (hpending | havailable) | ⟨_, hnone, -⟩
    · rcases (pending_notify_at _ cap time).mp hpending with hold | hnew
      · exact Or.inl (Or.inl hold)
      · exact Or.inr ⟨cap, rfl, hnew⟩
    · exact Or.inl (Or.inr havailable)
    · cases hnone
  | @notify_at_frontiered notificator frontiers later cap hadvances =>
    rcases h with hwaiting | ⟨_, hnone, -⟩
    · rcases notificator.notify_at_frontiered_cases cap later with ⟨-, heq⟩ | ⟨-, heq⟩
      · rw [heq] at hwaiting
        rcases hwaiting with hpending | havailable
        · exact Or.inl (Or.inl hpending)
        · rcases (available_push _ cap time).mp havailable with hold | hnew
          · exact Or.inl (Or.inr hold)
          · exact Or.inr ⟨cap, rfl, hnew⟩
      · rw [heq] at hwaiting
        rcases hwaiting with hpending | havailable
        · rcases (pending_notify_at _ cap time).mp hpending with hold | hnew
          · exact Or.inl (Or.inl hold)
          · exact Or.inr ⟨cap, rfl, hnew⟩
        · exact Or.inl (Or.inr havailable)
    · cases hnone
  | @make_available notificator frontiers later hadvances =>
    obtain ⟨hpending, havailable⟩ := notificator.make_available_spec later time
    rcases h with (hwait | hready) | ⟨_, hnone, -⟩
    · exact Or.inl (Or.inl (hpending.mp hwait).1)
    · rcases havailable.mp hready with hold | ⟨hwait, -⟩
      · exact Or.inl (Or.inr hold)
      · exact Or.inl (Or.inl hwait)
    · cases hnone
  | @next notificator frontiers later hadvances =>
    left
    rw [← (notificator.ready_spec later time).1]
    rcases notificator.next_cases later with ⟨heq, -⟩ | ⟨cap, rest, heq, hcap, -, hpending, hrest, -, -⟩
    · rw [heq] at h
      rcases h with hwaiting | ⟨_, hnone, -⟩
      · exact hwaiting
      · cases hnone
    · rw [heq] at h
      rcases h with (hwait | havailable) | ⟨_, hsome, rfl⟩
      · exact Or.inl ((hpending time).mp hwait)
      · exact Or.inr (hrest time havailable)
      · cases hsome
        exact Or.inr hcap

/-! ### Over whole runs -/

variable {start reached : FrontierNotificator T × List (MutableAntichain T)} {calls : List (Call T)}

theorem past_from_iter (iter : List (Capability T)) (inputs : List (MutableAntichain T)) :
    Past (from_iter iter, inputs) :=
  fun time havailable => absurd havailable (not_available_from_iter iter time)

/-- Only times that the frontiers are past are delivered. -/
theorem safe_of_run (hrun : Run Step start calls reached) (hstart : Past start) :
    Past reached ∧ ∀ frontiers cap, .next frontiers (some cap) ∈ calls → beyond frontiers cap.time = true := by
  refine hrun.invariant (P := fun calls reached => Past reached ∧
    ∀ frontiers cap, .next frontiers (some cap) ∈ calls → beyond frontiers cap.time = true)
    ⟨hstart, fun _ _ hmem => absurd hmem List.not_mem_nil⟩ ?_
  rintro calls before call after ⟨hpast, hsafe⟩ hstep
  obtain ⟨hpast', hnew⟩ := hpast.step hstep
  refine ⟨hpast', fun frontiers cap hmem => ?_⟩
  rcases List.mem_append.mp hmem with hold | hlast
  · exact hsafe frontiers cap hold
  · exact hnew frontiers cap (List.mem_singleton.mp hlast).symm

/-- What waits is delivered, or waits at the end. -/
theorem waiting_of_run (hrun : Run Step start calls reached) {time : T} (h : start.1.Waiting time) :
    reached.1.Waiting time ∨ Delivers calls time := by
  refine hrun.invariant (P := fun calls reached => reached.1.Waiting time ∨ Delivers calls time)
    (Or.inl h) ?_
  rintro calls before call after (hwaiting | hdelivered) hstep
  · rw [delivers_append]
    exact (hstep.waiting hwaiting).imp_right Or.inr
  · exact Or.inr (delivers_append.mpr (Or.inl hdelivered))

/-- What waits or is delivered in the end has been waiting from the start, or has been requested. -/
theorem requested_of_run (hrun : Run Step start calls reached) {time : T}
    (h : reached.1.Waiting time ∨ Delivers calls time) :
    start.1.Waiting time ∨ ∃ call ∈ calls, ∃ cap, call.requested = some cap ∧ cap.time = time := by
  refine hrun.invariant (P := fun calls reached => reached.1.Waiting time ∨ Delivers calls time →
    start.1.Waiting time ∨ ∃ call ∈ calls, ∃ cap, call.requested = some cap ∧ cap.time = time)
    ?_ ?_ h
  · rintro (hwaiting | ⟨_, hmem, -⟩)
    · exact Or.inl hwaiting
    · exact absurd hmem List.not_mem_nil
  · intro calls before call after ih hstep hafter
    -- it was delivered before, or this call explains it
    have hbefore : (before.1.Waiting time ∨ Delivers calls time) ∨
        ∃ cap, call.requested = some cap ∧ cap.time = time := by
      rw [delivers_append] at hafter
      rcases hafter with hwaiting | hold | hnew
      · exact (hstep.requested (Or.inl hwaiting)).imp_left Or.inl
      · exact Or.inl (Or.inr hold)
      · exact (hstep.requested (Or.inr hnew)).imp_left Or.inl
    rcases hbefore with hold | ⟨cap, hcap, htime⟩
    · rcases ih hold with hstart | ⟨other, hother, hrequested⟩
      · exact Or.inl hstart
      · exact Or.inr ⟨other, List.mem_append_left _ hother, hrequested⟩
    · exact Or.inr ⟨call, List.mem_append_right _ (List.mem_singleton_self call), cap, hcap, htime⟩

/-! ### Draining -/

/-- The calls of `next` that deliver these capabilities, and then none. -/
def drain_calls (frontiers : List (MutableAntichain T)) (caps : List (Capability T)) : List (Call T) :=
  caps.map (fun cap => .next frontiers (some cap)) ++ [.next frontiers none]

/-- When `next` finds nothing, nothing is available, and the frontiers are past no pending time. -/
theorem exhausted_of_next {notificator after : FrontierNotificator T} {frontiers : List (MutableAntichain T)}
    (h : notificator.next frontiers = (none, after)) :
    (∀ time, ¬ after.Available time) ∧ ∀ time, after.Pending time → beyond frontiers time = false := by
  rcases notificator.next_cases frontiers with ⟨heq, hnone⟩ | ⟨cap, rest, heq, -⟩
  · rw [heq] at h
    cases h
    refine ⟨hnone, fun time hpending => beyond_eq_false_of_ready hnone ?_⟩
    exact (notificator.ready_spec frontiers time).1.mp (Or.inl hpending)
  · rw [heq] at h
    cases h

/-- The step that a call of `next` makes. -/
theorem step_next {notificator after : FrontierNotificator T} {frontiers later : List (MutableAntichain T)}
    {delivered : Option (Capability T)} (hadvances : Advances frontiers later)
    (h : notificator.next later = (delivered, after)) :
    Step (notificator, frontiers) (.next later delivered) (after, later) := by
  have hstep : Step (notificator, frontiers) (.next later (notificator.next later).1)
      ((notificator.next later).2, later) := Step.next hadvances
  rwa [h] at hstep

/-- A drain that starts with delivering a capability. -/
theorem run_drain_cons {notificator after drained : FrontierNotificator T}
    {frontiers later : List (MutableAntichain T)} {cap : Capability T} {caps : List (Capability T)}
    (hadvances : Advances frontiers later) (h : notificator.next later = (some cap, after))
    (hrest : Run Step (after, later) (drain_calls later caps) (drained, later)) :
    Run Step (notificator, frontiers) (drain_calls later (cap :: caps)) (drained, later) :=
  (Run.nil.snoc (step_next hadvances h)).append hrest

theorem ready_of_available {notificator : FrontierNotificator T} (frontiers : List (MutableAntichain T))
    (h : notificator.available.items ≠ []) : notificator.ready frontiers = notificator :=
  if_neg fun hnil => h (List.isEmpty_iff.mp hnil)

/-- `next` takes from what is available until nothing is, where no pending time can become available. -/
theorem exists_drain_of_settled {notificator : FrontierNotificator T}
    {frontiers later : List (MutableAntichain T)} (hadvances : Advances frontiers later)
    (hsettled : ∀ time, notificator.Pending time → beyond later time = false) :
    ∃ caps drained, Run Step (notificator, frontiers) (drain_calls later caps) (drained, later) := by
  induction hsize : notificator.available.items.length using Nat.strong_induction_on
    generalizing notificator frontiers with
  | _ size ih =>
    rcases notificator.next_cases later with ⟨heq, -⟩ | ⟨cap, rest, heq, hcap, -, hpending, -, -, hshorter⟩
    · exact ⟨[], _, Run.nil.snoc (step_next hadvances heq)⟩
    · have hsome : notificator.available.items ≠ [] := by
        intro hnil
        rcases (notificator.ready_spec later cap.time).2.2 hcap with ⟨_, hmem, -⟩ | ⟨hwait, hbeyond⟩
        · rw [hnil] at hmem
          exact List.not_mem_nil hmem
        · rw [hsettled cap.time hwait] at hbeyond
          cases hbeyond
      rw [ready_of_available later hsome] at hpending hshorter
      obtain ⟨caps, drained, hrun⟩ := ih _ (hsize ▸ hshorter) (Advances.refl later)
        (fun time hwait => hsettled time ((hpending time).mp hwait)) rfl
      exact ⟨cap :: caps, drained, run_drain_cons hadvances heq hrun⟩

/-- Draining comes to an end. -/
theorem exists_drain {notificator : FrontierNotificator T} {frontiers later : List (MutableAntichain T)}
    (hadvances : Advances frontiers later) :
    ∃ caps drained, Run Step (notificator, frontiers) (drain_calls later caps) (drained, later) := by
  induction hsize : notificator.available.items.length using Nat.strong_induction_on
    generalizing notificator frontiers with
  | _ size ih =>
    rcases notificator.next_cases later with ⟨heq, -⟩ | ⟨cap, rest, heq, -, -, hpending, -, -, hshorter⟩
    · exact ⟨[], _, Run.nil.snoc (step_next hadvances heq)⟩
    · by_cases hsome : notificator.available.items = []
      · -- what could become available has become so
        have hready : notificator.ready later = notificator.make_available later :=
          if_pos (List.isEmpty_iff.mpr hsome)
        obtain ⟨caps, drained, hrun⟩ := exists_drain_of_settled (Advances.refl later)
          fun time hwait => by
            rw [hpending, hready] at hwait
            exact ((notificator.make_available_spec later time).1.mp hwait).2
        exact ⟨cap :: caps, drained, run_drain_cons hadvances heq hrun⟩
      · rw [ready_of_available later hsome] at hshorter
        obtain ⟨caps, drained, hrun⟩ := ih _ (hsize ▸ hshorter) (Advances.refl later) rfl
        exact ⟨cap :: caps, drained, run_drain_cons hadvances heq hrun⟩

/-! ### The main result -/

/-- What a call requests waits after it. -/
theorem Step.waiting_requested (hstep : Step before call after) {cap : Capability T}
    (h : call.requested = some cap) : after.1.Waiting cap.time := by
  cases hstep with
  | notify_at cap' =>
    cases h
    exact Or.inl ((pending_notify_at _ cap _).mpr (Or.inr rfl))
  | @notify_at_frontiered notificator frontiers later cap' hadvances =>
    cases h
    rcases notificator.notify_at_frontiered_cases cap later with ⟨-, heq⟩ | ⟨-, heq⟩
    · rw [heq]
      exact Or.inr ((available_push _ cap _).mpr (Or.inr rfl))
    · rw [heq]
      exact Or.inl ((pending_notify_at _ cap _).mpr (Or.inr rfl))
  | make_available hadvances => cases h
  | next hadvances => cases h

theorem exhausted_of_step {frontiers : List (MutableAntichain T)}
    (hstep : Step before (.next frontiers none) after) :
    (∀ time, ¬ after.1.Available time) ∧ ∀ time, after.1.Pending time → beyond frontiers time = false := by
  generalize hcall : Call.next frontiers none = call at hstep
  cases hstep with
  | notify_at cap => cases hcall
  | notify_at_frontiered cap hadvances => cases hcall
  | make_available hadvances => cases hcall
  | next hadvances =>
    obtain ⟨rfl, hnone⟩ := Call.next.inj hcall
    exact exhausted_of_next (Prod.ext hnone.symm rfl)

/-- After a drain, what has been waiting at some point has been delivered since, if the frontiers
    are past it. -/
theorem delivered_of_drain {frontiers : List (MutableAntichain T)} {caps : List (Capability T)}
    {drained : FrontierNotificator T} {time : T} (hrun : Run Step start calls reached)
    (hdrain : Run Step reached (drain_calls frontiers caps) (drained, frontiers))
    (hwaiting : start.1.Waiting time) (hbeyond : beyond frontiers time = true) :
    Delivers (calls ++ drain_calls frontiers caps) time := by
  obtain ⟨middle, -, hlast⟩ := hdrain.of_snoc
  obtain ⟨hnone, hpending⟩ := exhausted_of_step hlast
  rcases waiting_of_run (hrun.append hdrain) hwaiting with (hwait | havailable) | hdelivered
  · rw [hpending time hwait] at hbeyond
    cases hbeyond
  · exact absurd havailable (hnone time)
  · exact hdelivered

/-- No notification is delivered while a frontier can bring its time; nothing is delivered but what
    has been requested; and draining `next` with some frontiers ends, leaves nothing that could be
    delivered, and delivers every time that the frontiers are past, at least once since it was
    requested. -/
theorem notifications_exact (iter : List (Capability T)) (inputs : List (MutableAntichain T))
    (hrun : Run Step (from_iter iter, inputs) calls reached) :
    (∀ frontiers cap, .next frontiers (some cap) ∈ calls → beyond frontiers cap.time = true)
    ∧ (∀ before frontiers cap after, calls = before ++ .next frontiers (some cap) :: after →
        (∃ requested ∈ iter, requested.time = cap.time) ∨
          ∃ call ∈ before, ∃ requested, call.requested = some requested ∧ requested.time = cap.time)
    ∧ ∀ frontiers, Advances reached.2 frontiers → ∃ caps drained,
        Run Step reached (drain_calls frontiers caps) (drained, frontiers)
        ∧ (∀ time, ¬ drained.Available time)
        ∧ (∀ time, drained.Pending time → beyond frontiers time = false)
        ∧ (∀ requested ∈ iter, beyond frontiers requested.time = true →
            Delivers (calls ++ drain_calls frontiers caps) requested.time)
        ∧ (∀ before call after requested, calls = before ++ call :: after →
            call.requested = some requested → beyond frontiers requested.time = true →
            Delivers (after ++ drain_calls frontiers caps) requested.time) := by
  refine ⟨(safe_of_run hrun (past_from_iter iter inputs)).2, ?_, ?_⟩
  · rintro before frontiers cap after rfl
    rw [List.append_cons] at hrun
    obtain ⟨middle, hbefore, -⟩ := hrun.of_append
    have hdelivered : Delivers (before ++ [.next frontiers (some cap)]) cap.time :=
      delivers_append.mpr (Or.inr (delivers_singleton.mpr ⟨cap, rfl, rfl⟩))
    rcases requested_of_run hbefore (Or.inr hdelivered) with (hpending | havailable) | hrequested
    · exact Or.inl ((pending_from_iter iter cap.time).mp hpending)
    · exact absurd havailable (not_available_from_iter iter cap.time)
    · -- the last call is no request
      obtain ⟨call, hcall, requested, hsome, htime⟩ := hrequested
      rcases List.mem_append.mp hcall with hold | hlast
      · exact Or.inr ⟨call, hold, requested, hsome, htime⟩
      · rw [List.mem_singleton.mp hlast] at hsome
        cases hsome
  · intro frontiers hadvances
    obtain ⟨caps, drained, hdrain⟩ := exists_drain hadvances
    obtain ⟨middle, -, hlast⟩ := hdrain.of_snoc
    obtain ⟨hnone, hpending⟩ := exhausted_of_step hlast
    refine ⟨caps, drained, hdrain, hnone, hpending, fun requested hmem hbeyond => ?_, ?_⟩
    · have hwaiting : (from_iter iter).Waiting requested.time :=
        Or.inl ((pending_from_iter iter requested.time).mpr ⟨requested, hmem, rfl⟩)
      exact delivered_of_drain hrun hdrain hwaiting hbeyond
    · rintro before call after requested rfl hsome hbeyond
      obtain ⟨first, -, hrest⟩ := hrun.of_append
      obtain ⟨second, hcall, hafter⟩ := hrest.of_cons
      exact delivered_of_drain hafter hdrain (hcall.waiting_requested hsome) hbeyond

/-- A request for 3, made while the input may bring 2, and delivered once it brings 5 at least. -/
theorem notifications_exact_example :
    ∃ caps, Delivers ([] ++ drain_calls [MutableAntichain.new_bottom (5 : Unsigned 64)] caps) 3 := by
  have hrun : Run Step (from_iter [], [MutableAntichain.new_bottom (2 : Unsigned 64)])
      ([] ++ [.notify_at_frontiered ⟨3, ⟨0, 0⟩⟩ [MutableAntichain.new_bottom 2]]) _ :=
    Run.nil.snoc (Step.notify_at_frontiered ⟨3, ⟨0, 0⟩⟩ (Advances.refl _))
  have hadvances : Advances [MutableAntichain.new_bottom (2 : Unsigned 64)] [MutableAntichain.new_bottom 5] := by
    refine List.Forall₂.cons (fun time htime => ⟨2, List.mem_singleton_self _, ?_⟩) List.Forall₂.nil
    rw [List.mem_singleton.mp htime]
    decide
  obtain ⟨caps, drained, -, -, -, -, hdelivered⟩ := (notifications_exact [] _ hrun).2.2 _ hadvances
  exact ⟨caps, hdelivered [] _ [] ⟨3, ⟨0, 0⟩⟩ rfl rfl (by decide)⟩

end FrontierNotificator

end Timely
