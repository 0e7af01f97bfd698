/-
  Timely/WakeUps.lean
  ===================
  **No wake-up is lost** (`timely/src/worker.rs`, `communication/src/allocator/counters.rs`,
  `zero_copy/bytes_exchange.rs` and `timely/src/scheduling/activate.rs`).

  What has been put into an inbox that the worker has passed in this call is announced by
  the permit, or by a thread that is still to unpark the worker.  This is what makes it
  right that a merge queue only signals where it was empty.  A worker that stays parked
  therefore has nothing to do: each activation that was outstanding before has been
  presented to its dataflow.
-/
import Timely.Builder
import Timely.Parking

set_option linter.unusedSectionVars false

namespace Timely.Parking

open Library

/-! ### Stages -/

namespace Stage

/-- The worker has received from an inbox, in this call. -/
def Past (index : ℕ) : Stage → Prop
  | .receiving _ next => index < next
  | .outside | .scheduling _ => False
  | _ => True

/-- The worker has taken the activations of other threads, in this call. -/
def Listened : Stage → Prop
  | .deciding _ | .flushing _ _ _ | .parked _ _ _ => True
  | _ => False

/-- A clean path is still to be presented. -/
def Presents (path : List ℕ) : Stage → Prop
  | .deciding _ => True
  | .scheduling active_dataflows => ∃ index ∈ active_dataflows, path.head? = some index
  | _ => False

/-- The decision to park: for how long, when, and which paths have been activated since. -/
def decision : Stage → Option (Option Duration × Duration × List (List ℕ))
  | .flushing delay elapsed noted | .parked delay elapsed noted => some (delay, elapsed, noted)
  | _ => none

end Stage

namespace State

variable {others : ℕ} {state after : State others}

/-- The permit is there, or some thread is still to unpark the worker. -/
def Roused (state : State others) : Prop := state.token = true ∨ ∃ thread, state.threads thread = .unparking

/-- The permit is there, or some thread is still to unpark the worker when its batch is done. -/
def Expected (state : State others) : Prop :=
  state.Roused ∨ ∃ thread, state.threads thread = .batching

/-- What holds at all times: what lies behind the worker is announced, and where the worker has decided to
    park nothing has been active but what was activated since, and no moment comes before its time. -/
structure Watchful (state : State others) : Prop where
  inboxes : ∀ (index : ℕ) (inbox : Inbox), state.inboxes[index]? = some inbox → state.stage.Past index →
    inbox.items ≠ [] → state.Roused
  rx : state.stage.Listened → state.activations.rx ≠ [] → state.Expected
  events : ∀ delay elapsed noted, state.stage = .parked delay elapsed noted → state.events = []
  active : ∀ delay elapsed noted, state.stage.decision = some (delay, elapsed, noted) →
    ∀ path ∈ state.activations.paths, path ∈ noted
  moments : ∀ delay elapsed noted, state.stage.decision = some (delay, elapsed, noted) →
    ∀ item ∈ state.activations.queue.items, item.2 ∈ noted ∨
      ∃ rest, delay = some rest ∧ elapsed.as_nanos + rest.as_nanos ≤ item.1.as_nanos

/-- Outside of the part of a call that leads to parking there is nothing to announce. -/
theorem watchful_of_stage (hpast : ∀ index, ¬ state.stage.Past index) (hlistened : ¬ state.stage.Listened)
    (hdecision : state.stage.decision = none) : state.Watchful := by
  constructor
  · intro index _ _ hindex
    exact absurd hindex (hpast index)
  · intro h
    exact absurd h hlistened
  · intro delay elapsed noted hstage
    rw [hstage] at hdecision
    cases hdecision
  · intro delay elapsed noted h
    rw [hdecision] at h
    cases h
  · intro delay elapsed noted h
    rw [hdecision] at h
    cases h

theorem watchful_outside (h : state.stage = .outside) : state.Watchful := by
  apply watchful_of_stage
  · intro index
    rw [h]
    exact id
  · rw [h]
    exact id
  · rw [h]
    rfl

theorem watchful_scheduling {active_dataflows : List ℕ} (h : state.stage = .scheduling active_dataflows) :
    state.Watchful := by
  apply watchful_of_stage
  · intro index
    rw [h]
    exact id
  · rw [h]
    exact id
  · rw [h]
    rfl

/-! ### The steps of the worker -/

theorem Watchful.receive (h : state.Watchful) (hreceive : state.receive = some after) : after.Watchful := by
  unfold State.receive at hreceive
  split at hreceive
  case h_1 duration next hstage =>
    have hpast : ∀ (index : ℕ) (inbox : Inbox), state.inboxes[index]? = some inbox → index < next →
        inbox.items ≠ [] → state.Roused := by
      intro index inbox hinbox hlt
      apply h.inboxes index inbox hinbox
      rw [hstage]
      exact hlt
    -- of the other parts nothing is said at this stage
    have hrest : ∀ {inboxes : List Inbox} {events : List ℕ} {stage : Stage},
        ¬ stage.Listened → stage.decision = none →
        (∀ (index : ℕ) (inbox : Inbox), inboxes[index]? = some inbox → stage.Past index →
          inbox.items ≠ [] → state.Roused) →
        Watchful { state with inboxes := inboxes, events := events, stage := stage } := by
      intro inboxes events stage hlistened hdecision hinboxes
      refine ⟨hinboxes, fun hno => absurd hno hlistened, ?_, ?_, ?_⟩
      · rintro delay elapsed noted rfl
        cases hdecision
      · intro delay elapsed noted hsome
        exact absurd (hdecision.symm.trans hsome) nofun
      · intro delay elapsed noted hsome
        exact absurd (hdecision.symm.trans hsome) nofun
    split at hreceive
    case h_1 hnone =>
      cases hreceive
      apply hrest id rfl
      intro index inbox hinbox _
      apply hpast index inbox hinbox
      have hlength := List.getElem?_eq_none_iff.mp hnone
      have hlt := (List.getElem?_eq_some_iff.mp hinbox).1
      omega
    case h_2 hempty =>
      cases hreceive
      apply hrest id rfl
      intro index inbox hinbox hlt hitems
      rcases Nat.lt_succ_iff_lt_or_eq.mp hlt with hbefore | rfl
      · exact hpast index inbox hinbox hbefore hitems
      · rw [hempty] at hinbox
        cases hinbox
        exact absurd rfl hitems
    case h_3 channel items hcounters =>
      cases hreceive
      rw [hstage]
      apply hrest id rfl
      intro index inbox hinbox hlt
      have hlt : index < next := hlt
      rw [List.getElem?_set_ne (by omega)] at hinbox
      exact hpast index inbox hinbox hlt
    case h_4 items hqueue =>
      cases hreceive
      apply hrest id rfl
      intro index inbox hinbox hlt hitems
      rcases Nat.lt_succ_iff_lt_or_eq.mp hlt with hbefore | rfl
      · rw [List.getElem?_set_ne (by omega)] at hinbox
        exact hpast index inbox hinbox hbefore hitems
      · rw [List.getElem?_set_self (List.getElem?_eq_some_iff.mp hqueue).1] at hinbox
        cases hinbox
        exact absurd rfl hitems
  case h_2 => cases hreceive

theorem Watchful.respond (h : state.Watchful) (hrespond : state.respond = some after) : after.Watchful := by
  unfold State.respond at hrespond
  split at hrespond
  case h_1 duration hstage =>
    cases hrespond
    refine ⟨fun index inbox hinbox _ => h.inboxes index inbox hinbox ?_, False.elim, nofun, nofun, nofun⟩
    rw [hstage]
    trivial
  case h_2 => cases hrespond

theorem Watchful.advance (h : state.Watchful) {now : Duration} (hadvance : state.advance now = some after) :
    after.Watchful := by
  unfold State.advance at hadvance
  split at hadvance
  case h_1 duration hstage =>
    have hinboxes : ∀ (index : ℕ) (inbox : Inbox), state.inboxes[index]? = some inbox →
        inbox.items ≠ [] → state.Roused := by
      intro index inbox hinbox
      apply h.inboxes index inbox hinbox
      rw [hstage]
      trivial
    split at hadvance
    case h_1 path rx hrx =>
      cases hadvance
      refine ⟨fun index inbox hinbox _ => hinboxes index inbox hinbox, ?_, ?_, ?_, ?_⟩
      · rw [hstage]
        exact False.elim
      all_goals
        rw [hstage]
        exact nofun
    case h_2 hrx =>
      cases hadvance
      refine ⟨fun index inbox hinbox _ => hinboxes index inbox hinbox, fun _ hsome => ?_, nofun, nofun, nofun⟩
      exact absurd (Activations.advance_spec state.activations now).2.2.1 hsome
  case h_2 => cases hadvance

/-- The worker parks for no longer than it is said to be empty for. -/
theorem park_for_le {duration empty_for : Option Duration} (h : park_for duration empty_for ≠ some default) :
    empty_for ≠ some default ∧ ∀ rest, empty_for = some rest →
      ∃ delay, park_for duration empty_for = some delay ∧ delay.as_nanos ≤ rest.as_nanos := by
  have hleast : ∀ duration : Duration, duration ≤ default → duration = default := by
    intro duration hle
    apply Duration.as_nanos_injective
    rw [Duration.le_iff, Duration.as_nanos_default] at hle
    rw [Duration.as_nanos_default]
    exact Nat.le_zero.mp hle
  cases duration with
  | none =>
    have hsame : park_for none empty_for = empty_for := by
      cases empty_for <;> rfl
    rw [hsame] at h ⊢
    exact ⟨h, fun rest hrest => ⟨rest, hrest, le_rfl⟩⟩
  | some limit =>
    constructor
    · rintro rfl
      apply h
      change some (if limit ≤ default then limit else default) = some default
      split_ifs with hle
      · rw [hleast limit hle]
      · rfl
    · rintro rest rfl
      refine ⟨_, rfl, ?_⟩
      split_ifs with hle
      · exact Duration.le_iff.mp hle
      · exact le_rfl

theorem Watchful.decide_to_park (h : state.Watchful) {elapsed : Duration}
    (hdecide : state.decide_to_park elapsed = some after) : after.Watchful := by
  unfold State.decide_to_park at hdecide
  split at hdecide
  case h_1 duration hstage =>
    obtain ⟨empty_for, hempty, rfl⟩ := Option.map_eq_some_iff.mp hdecide
    split_ifs with hpark
    · obtain ⟨hdelay, hwithin⟩ := park_for_le hpark.2
      obtain ⟨found, hfound, hspec⟩ := state.activations.empty_for_spec elapsed
      rw [hempty] at hfound
      cases hfound
      obtain ⟨hbounds, hmoments⟩ := hspec hdelay
      refine ⟨fun index inbox hinbox _ => h.inboxes index inbox hinbox ?_, fun _ => h.rx ?_, nofun, ?_, ?_⟩
      · rw [hstage]
        trivial
      · rw [hstage]
        trivial
      · intro delay decided noted _ path hpath
        have hpaths : state.activations.paths = [] := by
          unfold Activations.paths Activations.map_active
          rw [hbounds]
          rfl
        rw [hpaths] at hpath
        exact absurd hpath List.not_mem_nil
      · rintro delay decided noted hsome item hitem
        cases hsome
        obtain ⟨rest, hrest, hle⟩ := hmoments item hitem
        obtain ⟨shorter, hshorter, hless⟩ := hwithin rest hrest
        exact Or.inr ⟨shorter, hshorter, le_trans (Nat.add_le_add_left hless _) hle⟩
    · exact watchful_scheduling rfl
  case h_2 => cases hdecide

theorem Watchful.await_events (h : state.Watchful) (hawait : state.await_events = some after) :
    after.Watchful := by
  unfold State.await_events at hawait
  split at hawait
  case h_1 delay elapsed noted hstage =>
    split_ifs at hawait with hevents
    · cases hawait
      have hdecision : state.stage.decision = some (delay, elapsed, noted) := by
        rw [hstage]
        rfl
      refine ⟨fun index inbox hinbox _ => h.inboxes index inbox hinbox ?_, fun _ => h.rx ?_,
        fun _ _ _ _ => hevents, ?_, ?_⟩
      · rw [hstage]
        trivial
      · rw [hstage]
        trivial
      · intro _ _ _ hsome
        exact h.active _ _ _ (hdecision.trans hsome)
      · intro _ _ _ hsome
        exact h.moments _ _ _ (hdecision.trans hsome)
    · cases hawait
      exact watchful_outside rfl
  case h_2 => cases hawait

theorem watchful_unpark {permitted : Bool} (hunpark : state.unpark permitted = some after) :
    after.Watchful := by
  unfold State.unpark at hunpark
  split at hunpark
  case h_1 =>
    split_ifs at hunpark
    · cases hunpark
      exact watchful_outside rfl
    · cases hunpark
      exact watchful_outside rfl
  case h_2 => cases hunpark

theorem watchful_step_dataflow (hstep : state.step_dataflow = some after) : after.Watchful := by
  unfold State.step_dataflow at hstep
  split at hstep
  case h_1 =>
    cases hstep
    exact watchful_outside rfl
  case h_2 =>
    split_ifs at hstep
    · cases hstep
      exact watchful_scheduling rfl
    · cases hstep
      exact watchful_scheduling rfl
  case h_3 => cases hstep

/-! ### What runs within the worker -/

/-- Activating paths appends them. -/
theorem mem_paths_of_appended {before after : Activations} {paths : List (List ℕ)}
    (h : Activations.Appended before after paths) {path : List ℕ} :
    path ∈ after.paths ↔ path ∈ before.paths ∨ path ∈ paths := by
  rw [h.paths, List.mem_append]

theorem Watchful.note (h : state.Watchful) {path : List ℕ} {activations : Activations}
    (hopen : state.stage.open_to = true) (hrx : activations.rx = state.activations.rx)
    (hpaths : ∀ other ∈ activations.paths, other = path ∨ other ∈ state.activations.paths)
    (hqueue : ∀ item ∈ activations.queue.items, item.2 = path ∨ item ∈ state.activations.queue.items) :
    Watchful { state with activations := activations, stage := state.stage.note path } := by
  cases hstage : state.stage with
  | outside => exact watchful_outside rfl
  | scheduling active_dataflows => exact watchful_scheduling rfl
  | flushing delay elapsed noted =>
    have hdecision : state.stage.decision = some (delay, elapsed, noted) := by
      rw [hstage]
      rfl
    refine ⟨fun index inbox hinbox _ => h.inboxes index inbox hinbox ?_, fun _ hsome => h.rx ?_ ?_, nofun, ?_, ?_⟩
    · rw [hstage]
      trivial
    · rw [hstage]
      trivial
    · rw [← hrx]
      exact hsome
    · rintro _ _ _ hsome other hother
      cases hsome
      rcases hpaths other hother with rfl | hold
      · exact List.mem_cons_self
      · exact List.mem_cons_of_mem _ (h.active _ _ _ hdecision other hold)
    · rintro _ _ _ hsome item hitem
      cases hsome
      rcases hqueue item hitem with rfl | hold
      · exact Or.inl List.mem_cons_self
      · exact (h.moments _ _ _ hdecision item hold).imp_left (List.mem_cons_of_mem _)
  | receiving | responding | advancing | deciding | parked =>
    rw [hstage] at hopen
    cases hopen

/-- What has to do with neither inboxes nor activations is as before. -/
theorem Watchful.of_same (h : state.Watchful) (hinboxes : after.inboxes = state.inboxes)
    (hactivations : after.activations = state.activations) (hstage : after.stage = state.stage)
    (htoken : after.token = state.token) (hthreads : after.threads = state.threads)
    (hopen : state.stage.open_to = true) : after.Watchful := by
  have hroused : after.Roused = state.Roused := by
    unfold State.Roused
    rw [htoken, hthreads]
  have hexpected : after.Expected = state.Expected := by
    unfold State.Expected
    rw [hroused, hthreads]
  constructor
  · rw [hinboxes, hstage, hroused]
    exact h.inboxes
  · rw [hactivations, hstage, hexpected]
    exact h.rx
  · intro delay elapsed noted hparked
    rw [← hstage, hparked] at hopen
    cases hopen
  · rw [hactivations, hstage]
    exact h.active
  · rw [hactivations, hstage]
    exact h.moments

theorem Watchful.act (h : state.Watchful) {act : Act} (hopen : state.stage.open_to = true)
    (hact : state.act act = some after) : after.Watchful := by
  cases act with
  | activate path =>
    cases hact
    apply h.note hopen
    · rfl
    · intro other hother
      rw [mem_paths_of_appended (Activations.appended_activate _ _), List.mem_singleton] at hother
      exact hother.symm
    · exact fun _ hitem => Or.inr hitem
  | activate_after path delay elapsed =>
    obtain ⟨activations, hafter, rfl⟩ := Option.map_eq_some_iff.mp hact
    unfold Activations.activate_after at hafter
    split_ifs at hafter
    · cases hafter
      apply h.note hopen
      · rfl
      · intro other hother
        rw [mem_paths_of_appended (Activations.appended_activate _ _), List.mem_singleton] at hother
        exact hother.symm
      · exact fun _ hitem => Or.inr hitem
    · obtain ⟨moment, -, rfl⟩ := Option.map_eq_some_iff.mp hafter
      apply h.note hopen
      · rfl
      · exact fun _ hother => Or.inr hother
      · intro item hitem
        rcases PriorityQueue.mem_push.mp hitem with rfl | hold
        · exact Or.inl rfl
        · exact Or.inr hold
  | push channel | insert_path channel path | remove_path channel | insert_dataflow index
  | remove_dataflow index =>
    cases hact
    exact h.of_same rfl rfl rfl rfl rfl hopen

/-! ### Other threads -/

/-- Threads that do not come to unparking leave the worker as roused as it was. -/
theorem Roused.set_duty (h : state.Roused) {thread : Fin others} {duty : Duty}
    (hduty : state.threads thread ≠ .unparking) : (state.set_duty thread duty).Roused := by
  rcases h with htoken | ⟨other, hother⟩
  · exact Or.inl htoken
  · refine Or.inr ⟨other, ?_⟩
    change Function.update state.threads thread duty other = _
    rw [Function.update_of_ne, hother]
    rintro rfl
    exact hduty hother

theorem Expected.set_duty (h : state.Expected) {thread : Fin others} {duty : Duty}
    (hduty : state.threads thread = .idle) : (state.set_duty thread duty).Expected := by
  rcases h with hroused | ⟨other, hother⟩
  · exact Or.inl (hroused.set_duty (by rw [hduty]; exact nofun))
  · refine Or.inr ⟨other, ?_⟩
    change Function.update state.threads thread duty other = _
    rw [Function.update_of_ne, hother]
    rintro rfl
    rw [hduty] at hother
    cases hother

theorem roused_unparking (state : State others) (thread : Fin others) : (state.set_duty thread .unparking).Roused :=
  Or.inr ⟨thread, Function.update_self _ _ _⟩

/-- Where the worker is roused, nothing is left to say of inboxes and activations. -/
theorem Watchful.of_roused (h : state.Watchful) (hroused : after.Roused) (hstage : after.stage = state.stage)
    (hevents : after.events = state.events) (hpaths : after.activations.paths = state.activations.paths)
    (hqueue : after.activations.queue = state.activations.queue) : after.Watchful := by
  constructor
  · intro _ _ _ _ _
    exact hroused
  · intro _ _
    exact Or.inl hroused
  · rw [hstage, hevents]
    exact h.events
  · rw [hstage, hpaths]
    exact h.active
  · rw [hstage, hqueue]
    exact h.moments

theorem Watchful.thread_act (h : state.Watchful) {thread : Fin others} {act : ThreadAct}
    (hact : state.thread_act thread act = some after) : after.Watchful := by
  cases act with
  | push inbox channel =>
    simp only [State.thread_act] at hact
    split_ifs at hact with hidle
    cases hact
    have hduty : state.threads thread ≠ .unparking := by
      rw [hidle.1]
      exact nofun
    refine ⟨fun index found hfound hpast hitems => ?_, fun hlistened hrx => ?_, h.events, h.active, h.moments⟩
    · exact (h.inboxes index found hfound hpast hitems).set_duty hduty
    · exact (h.rx hlistened hrx).set_duty hidle.1
  | send =>
    simp only [State.thread_act] at hact
    split at hact
    case h_1 inbox channel hcounting =>
      obtain ⟨counters, -, rfl⟩ := Option.map_eq_some_iff.mp hact
      exact h.of_roused (roused_unparking _ thread) rfl rfl rfl rfl
    case h_2 => cases hact
  | extend inbox items =>
    simp only [State.thread_act] at hact
    split_ifs at hact with hidle
    obtain ⟨queue, hqueue, rfl⟩ := Option.map_eq_some_iff.mp hact
    have hduty : state.threads thread ≠ .unparking := by
      rw [hidle.1]
      exact nofun
    by_cases hsignal : queue.items = [] ∧ items ≠ []
    · rw [if_pos hsignal]
      exact h.of_roused (roused_unparking _ thread) rfl rfl rfl rfl
    · rw [if_neg hsignal]
      refine ⟨fun index found hfound hpast hitems => ?_, fun hlistened hrx => ?_, h.events, h.active, h.moments⟩
      · have hroused : state.Roused := by
          rcases Builder.getElem?_set_cases hfound with ⟨rfl, rfl⟩ | ⟨-, hold⟩
          · -- the queue was not empty, and has been announced before
            apply h.inboxes _ queue hqueue hpast
            intro hnone
            apply hsignal
            refine ⟨hnone, fun hnothing => hitems ?_⟩
            change queue.items ++ items = []
            rw [hnone, hnothing]
            rfl
          · exact h.inboxes index found hold hpast hitems
        exact hroused.set_duty hduty
      · exact (h.rx hlistened hrx).set_duty hidle.1
  | activate path =>
    simp only [State.thread_act] at hact
    split_ifs at hact with hbatch
    cases hact
    have hduty : state.threads thread ≠ .unparking := by
      rcases hbatch with hidle | hbatching
      · rw [hidle]
        exact nofun
      · rw [hbatching]
        exact nofun
    refine ⟨fun index found hfound hpast hitems => ?_, fun _ _ => Or.inr ⟨thread, ?_⟩, h.events, h.active,
      h.moments⟩
    · exact (h.inboxes index found hfound hpast hitems).set_duty hduty
    · exact Function.update_self _ _ _
  | finish =>
    simp only [State.thread_act] at hact
    split_ifs at hact
    cases hact
    exact h.of_roused (roused_unparking _ thread) rfl rfl rfl rfl
  | unpark =>
    simp only [State.thread_act] at hact
    split_ifs at hact
    cases hact
    exact h.of_roused (Or.inl rfl) rfl rfl rfl rfl

/-! ### Runs -/

theorem watchful_start (kinds : List Kind) : (start others kinds).Watchful := watchful_outside rfl

theorem Watchful.step (h : state.Watchful) {event : Event others} (hstep : Step state event after) :
    after.Watchful := by
  cases event with
  | call duration =>
    simp only [Step, State.perform] at hstep
    split_ifs at hstep
    cases hstep
    exact ⟨fun _ _ _ hpast => absurd hpast (Nat.not_lt_zero _), False.elim, nofun, nofun, nofun⟩
  | receive => exact h.receive hstep
  | respond => exact h.respond hstep
  | advance now => exact h.advance hstep
  | decide_to_park elapsed => exact h.decide_to_park hstep
  | await_events => exact h.await_events hstep
  | unpark permitted => exact watchful_unpark hstep
  | step_dataflow => exact watchful_step_dataflow hstep
  | act act =>
    simp only [Step, State.perform] at hstep
    split_ifs at hstep with hopen
    exact h.act hopen hstep
  | thread_act thread act => exact h.thread_act hstep

theorem watchful_of_run {kinds : List Kind} {events : List (Event others)} (h : Run Step (start others kinds) events state) :
    state.Watchful := by
  apply h.invariant (P := fun _ state => state.Watchful) (watchful_start kinds)
  intro _ _ _ _ hbefore hstep
  exact hbefore.step hstep

/-! ### What is outstanding -/

/-- A message has been put into a channel, and the worker has not turned this into an activation. -/
def Told (state : State others) (channel : ℕ) : Prop :=
  (∃ thread inbox, state.threads thread = .counting inbox channel) ∨
    (∃ inbox ∈ state.inboxes, channel ∈ inbox.items) ∨ channel ∈ state.events

/-- A path is active, and has not been presented. -/
def Due (state : State others) (path : List ℕ) : Prop :=
  path ∈ state.activations.fresh ∨
    path ∈ state.activations.paths.take state.activations.clean ∧ state.stage.Presents path

/-- A path is to be activated, or has been, and has not been presented. -/
def Outstanding (state : State others) (path : List ℕ) : Prop :=
  (∃ channel, state.Told channel ∧ state.paths.lookup channel = some path) ∨
    path ∈ state.activations.rx ∨ state.Due path

/-- What was outstanding still is, or has been presented or forgotten since. -/
def Accounted (before after : State others) : Prop :=
  ∃ presented forgotten, after.presented = before.presented ++ presented ∧
    after.forgotten = before.forgotten ++ forgotten ∧
    ∀ path ≠ [], before.Outstanding path →
      after.Outstanding path ∨ path ∈ presented ∨ path ∈ forgotten

theorem Accounted.refl (state : State others) : Accounted state state :=
  ⟨[], [], (List.append_nil _).symm, (List.append_nil _).symm, fun _ _ h => Or.inl h⟩

theorem Accounted.trans {first second third : State others} (h : Accounted first second)
    (h' : Accounted second third) : Accounted first third := by
  obtain ⟨presented, forgotten, hpresented, hforgotten, hfirst⟩ := h
  obtain ⟨more, lost, hmore, hlost, hsecond⟩ := h'
  refine ⟨presented ++ more, forgotten ++ lost, ?_, ?_, ?_⟩
  · rw [hmore, hpresented, List.append_assoc]
  · rw [hlost, hforgotten, List.append_assoc]
  · intro path hpath hout
    simp only [List.mem_append]
    rcases hfirst path hpath hout with hstill | hdone | hgone
    · rcases hsecond path hpath hstill with hstill | hdone | hgone
      · exact Or.inl hstill
      · exact Or.inr (Or.inl (Or.inr hdone))
      · exact Or.inr (Or.inr (Or.inr hgone))
    · exact Or.inr (Or.inl (Or.inl hdone))
    · exact Or.inr (Or.inr (Or.inl hgone))

/-- Nothing is presented, and all that was outstanding still is. -/
theorem accounted_of_kept (hpresented : after.presented = state.presented)
    (hforgotten : after.forgotten = state.forgotten)
    (h : ∀ path, state.Outstanding path → after.Outstanding path) : Accounted state after :=
  ⟨[], [], by rw [hpresented, List.append_nil], by rw [hforgotten, List.append_nil],
    fun path _ hout => Or.inl (h path hout)⟩

/-- Where the channels are the same, it is enough to look at what they are told and at what is active. -/
theorem Outstanding.of_told {path : List ℕ} (h : state.Outstanding path)
    (htold : ∀ channel, state.Told channel → after.Told channel) (hpaths : after.paths = state.paths)
    (hrx : path ∈ state.activations.rx → path ∈ after.activations.rx ∨ after.Due path)
    (hdue : state.Due path → after.Due path) : after.Outstanding path := by
  rcases h with ⟨channel, hchannel, hlookup⟩ | hsent | hactive
  · refine Or.inl ⟨channel, htold channel hchannel, ?_⟩
    rw [hpaths]
    exact hlookup
  · exact Or.inr (hrx hsent)
  · exact Or.inr (Or.inr (hdue hactive))

theorem Outstanding.of_stage {path : List ℕ} (h : state.Outstanding path) {events : List ℕ}
    {stage : Stage} {token : Bool} (hevents : ∀ channel ∈ state.events, channel ∈ events)
    (hpresents : state.stage.Presents path → stage.Presents path) :
    Outstanding { state with events := events, stage := stage, token := token } path := by
  apply h.of_told
  · intro channel htold
    exact htold.imp_right (Or.imp_right (hevents channel))
  · rfl
  · exact Or.inl
  · exact Or.imp_right (And.imp_right hpresents)

theorem accounted_receive (h : state.receive = some after) : Accounted state after := by
  unfold State.receive at h
  split at h
  case h_1 duration next hstage =>
    -- at this stage nothing is presented
    have hpresents : ∀ {path : List ℕ} {stage : Stage}, state.stage.Presents path → stage.Presents path := by
      intro path stage hno
      rw [hstage] at hno
      exact hno.elim
    -- what is taken from an inbox is among the events then
    have hmoved : ∀ {kind : Kind} (taken left : List ℕ) {stage : Stage},
        state.inboxes[next]? = some ⟨kind, taken ++ left⟩ →
        Accounted state { state with
          inboxes := state.inboxes.set next ⟨kind, left⟩
          events := state.events ++ taken
          stage := stage } := by
      intro kind taken left stage hinbox
      refine accounted_of_kept rfl rfl ?_
      intro path hout
      apply hout.of_told
      · rintro channel (hcounting | ⟨inbox, hmem, hchannel⟩ | hevent)
        · exact Or.inl hcounting
        · obtain ⟨index, hindex⟩ := List.mem_iff_getElem?.mp hmem
          by_cases heq : next = index
          · subst heq
            rw [hinbox] at hindex
            cases hindex
            rcases List.mem_append.mp hchannel with htaken | hleft
            · exact Or.inr (Or.inr (List.mem_append_right _ htaken))
            · refine Or.inr (Or.inl ⟨⟨kind, left⟩, ?_, hleft⟩)
              exact List.mem_set (List.getElem?_eq_some_iff.mp hinbox).1 _
          · refine Or.inr (Or.inl ⟨inbox, ?_, hchannel⟩)
            apply List.mem_of_getElem? (i := index)
            rw [List.getElem?_set_ne heq]
            exact hindex
        · exact Or.inr (Or.inr (List.mem_append_left _ hevent))
      · rfl
      · exact Or.inl
      · exact Or.imp_right (And.imp_right hpresents)
    split at h
    case h_1 =>
      cases h
      refine accounted_of_kept rfl rfl ?_
      intro path hout
      exact hout.of_stage (fun _ => id) hpresents
    case h_2 =>
      cases h
      refine accounted_of_kept rfl rfl ?_
      intro path hout
      exact hout.of_stage (fun _ => id) hpresents
    case h_3 channel items hinbox =>
      cases h
      exact hmoved [channel] items hinbox
    case h_4 items hinbox =>
      cases h
      apply hmoved items []
      rw [List.append_nil]
      exact hinbox
  case h_2 => cases h

theorem accounted_respond (h : state.respond = some after) : Accounted state after := by
  unfold State.respond at h
  split at h
  case h_1 duration hstage =>
    cases h
    have happended := Activations.appended_foldl_activate state.activations
      (state.events.filterMap state.paths.lookup)
    refine accounted_of_kept rfl rfl ?_
    rintro path (⟨channel, hcounting | hinbox | hevent, hlookup⟩ | hsent | hfresh | ⟨-, hpresents⟩)
    · exact Or.inl ⟨channel, Or.inl hcounting, hlookup⟩
    · exact Or.inl ⟨channel, Or.inr (Or.inl hinbox), hlookup⟩
    · refine Or.inr (Or.inr (Or.inl ?_))
      rw [happended.fresh]
      exact List.mem_append_right _ (List.mem_filterMap.mpr ⟨channel, hevent, hlookup⟩)
    · refine Or.inr (Or.inl ?_)
      rw [happended.rx]
      exact hsent
    · refine Or.inr (Or.inr (Or.inl ?_))
      rw [happended.fresh]
      exact List.mem_append_left _ hfresh
    · rw [hstage] at hpresents
      exact hpresents.elim
  case h_2 => cases h

theorem accounted_advance {now : Duration} (h : state.advance now = some after) : Accounted state after := by
  unfold State.advance at h
  split at h
  case h_1 duration hstage =>
    have hpresents : ∀ path : List ℕ, ¬ state.stage.Presents path := by
      intro path
      rw [hstage]
      exact id
    split at h
    case h_1 first rx hrx =>
      cases h
      have happended := Activations.appended_activate { state.activations with rx := rx } first
      refine accounted_of_kept rfl rfl ?_
      intro path hout
      refine hout.of_told (fun _ => id) rfl ?_ ?_
      · intro hsent
        rw [hrx] at hsent
        rcases List.mem_cons.mp hsent with rfl | hrest
        · refine Or.inr (Or.inl ?_)
          rw [happended.fresh]
          exact List.mem_append_right _ (List.mem_singleton_self _)
        · exact Or.inl hrest
      · rintro (hfresh | ⟨-, hno⟩)
        · refine Or.inl ?_
          rw [happended.fresh]
          exact List.mem_append_left _ hfresh
        · exact absurd hno (hpresents path)
    case h_2 hrx =>
      cases h
      obtain ⟨hactive, hclean, -, -⟩ := state.activations.advance_spec now
      refine accounted_of_kept rfl rfl ?_
      intro path hout
      refine hout.of_told (fun _ => id) rfl ?_ ?_
      · intro hsent
        rw [hrx] at hsent
        exact absurd hsent List.not_mem_nil
      · rintro (hfresh | ⟨-, hno⟩)
        · refine Or.inr ⟨?_, trivial⟩
          rw [hclean, List.take_length]
          exact (hactive path).mpr (Or.inl hfresh)
        · exact absurd hno (hpresents path)
  case h_2 => cases h

/-- Each dataflow with a clean path is listed. -/
theorem mem_for_extensions {activations : Activations} {index : ℕ} {path : List ℕ}
    (hpath : path ∈ activations.paths.take activations.clean) (hhead : path.head? = some index) :
    index ∈ activations.for_extensions [] := by
  obtain ⟨more, hextensions, -⟩ := activations.for_extensions_eq []
  rw [hextensions]
  apply List.mem_append_left
  rw [(activations.clean_extensions_exact []).2]
  obtain ⟨rest, rfl⟩ := List.head?_eq_some_iff.mp hhead
  exact ⟨_, hpath, rest, rfl⟩

theorem accounted_decide_to_park {elapsed : Duration} (h : state.decide_to_park elapsed = some after) :
    Accounted state after := by
  unfold State.decide_to_park at h
  split at h
  case h_1 duration hstage =>
    obtain ⟨empty_for, hempty, rfl⟩ := Option.map_eq_some_iff.mp h
    split_ifs with hpark
    · -- the worker parks only where no path is active
      obtain ⟨found, hfound, hspec⟩ := state.activations.empty_for_spec elapsed
      rw [hempty] at hfound
      cases hfound
      have hpaths : state.activations.paths = [] := by
        unfold Activations.paths Activations.map_active
        rw [(hspec (park_for_le hpark.2).1).1]
        rfl
      refine accounted_of_kept rfl rfl ?_
      intro path hout
      refine hout.of_told (fun _ => id) rfl Or.inl ?_
      rintro (hfresh | ⟨hclean, -⟩)
      · exact Or.inl hfresh
      · rw [hpaths, List.take_nil] at hclean
        exact absurd hclean List.not_mem_nil
    · refine ⟨[], [], (List.append_nil _).symm, (List.append_nil _).symm, fun path hne hout => Or.inl ?_⟩
      refine hout.of_told (fun _ => id) rfl Or.inl ?_
      rintro (hfresh | ⟨hclean, -⟩)
      · exact Or.inl hfresh
      · obtain ⟨index, rest, rfl⟩ := List.exists_cons_of_ne_nil hne
        exact Or.inr ⟨hclean, index, mem_for_extensions hclean rfl, rfl⟩
  case h_2 => cases h

theorem accounted_await_events (h : state.await_events = some after) : Accounted state after := by
  unfold State.await_events at h
  split at h
  case h_1 delay elapsed noted hstage =>
    have hpresents : ∀ {path : List ℕ} {stage : Stage}, state.stage.Presents path → stage.Presents path := by
      intro path stage hno
      rw [hstage] at hno
      exact hno.elim
    split_ifs at h
    · cases h
      exact accounted_of_kept rfl rfl fun path hout => hout.of_stage (fun _ => id) hpresents
    · cases h
      exact accounted_of_kept rfl rfl fun path hout => hout.of_stage (fun _ => id) hpresents
  case h_2 => cases h

theorem accounted_unpark {permitted : Bool} (h : state.unpark permitted = some after) :
    Accounted state after := by
  unfold State.unpark at h
  split at h
  case h_1 delay elapsed noted hstage =>
    have hpresents : ∀ {path : List ℕ} {stage : Stage}, state.stage.Presents path → stage.Presents path := by
      intro path stage hno
      rw [hstage] at hno
      exact hno.elim
    split_ifs at h
    · cases h
      exact accounted_of_kept rfl rfl fun path hout => hout.of_stage (fun _ => id) hpresents
    · cases h
      exact accounted_of_kept rfl rfl fun path hout => hout.of_stage (fun _ => id) hpresents
  case h_2 => cases h

/-- The clean paths of the dataflow that is stepped are done with, the others are still to be presented. -/
theorem accounted_step_dataflow (h : state.step_dataflow = some after) : Accounted state after := by
  unfold State.step_dataflow at h
  split at h
  case h_1 hstage =>
    cases h
    refine accounted_of_kept rfl rfl ?_
    intro path hout
    apply hout.of_stage (fun _ => id)
    rw [hstage]
    rintro ⟨index, hindex, -⟩
    exact absurd hindex List.not_mem_nil
  case h_2 index rest hstage =>
    have hsplit : ∀ {path : List ℕ} {presented forgotten : List (List ℕ)}, state.Outstanding path →
        Outstanding { state with
          presented := presented, forgotten := forgotten, stage := .scheduling rest } path ∨
          path ∈ state.paths_of index := by
      rintro path presented forgotten (htold | hsent | hfresh | ⟨hclean, hpresents⟩)
      · exact Or.inl (Or.inl htold)
      · exact Or.inl (Or.inr (Or.inl hsent))
      · exact Or.inl (Or.inr (Or.inr (Or.inl hfresh)))
      · rw [hstage] at hpresents
        obtain ⟨head, hhead, hpath⟩ := hpresents
        rcases List.mem_cons.mp hhead with rfl | hlater
        · exact Or.inr (List.mem_filter.mpr ⟨hclean, decide_eq_true hpath⟩)
        · exact Or.inl (Or.inr (Or.inr (Or.inr ⟨hclean, head, hlater, hpath⟩)))
    split_ifs at h
    · cases h
      refine ⟨state.paths_of index, [], rfl, (List.append_nil _).symm, fun path _ hout => ?_⟩
      exact (hsplit hout).imp_right Or.inl
    · cases h
      refine ⟨[], state.paths_of index, (List.append_nil _).symm, rfl, fun path _ hout => ?_⟩
      exact (hsplit hout).imp_right Or.inr
  case h_3 => cases h

theorem presents_note {stage : Stage} {path other : List ℕ} (h : stage.Presents path) :
    (stage.note other).Presents path := by
  cases stage with
  | flushing => exact h.elim
  | outside | receiving | responding | advancing | deciding | parked | scheduling => exact h

/-- Activating a path leaves what was due. -/
theorem accounted_activate (state : State others) (path : List ℕ) :
    Accounted state { state with
      activations := state.activations.activate path
      stage := state.stage.note path } := by
  have happended := Activations.appended_activate state.activations path
  refine accounted_of_kept rfl rfl ?_
  intro other hout
  refine hout.of_told (fun _ => id) rfl Or.inl ?_
  rintro (hfresh | ⟨hclean, hpresents⟩)
  · refine Or.inl ?_
    rw [happended.fresh]
    exact List.mem_append_left _ hfresh
  · refine Or.inr ⟨?_, presents_note hpresents⟩
    rw [happended.paths, happended.clean, List.take_append_of_le_length]
    · exact hclean
    · rw [Activations.length_paths]
      exact state.activations.clean_le

theorem accounted_act {act : Act} (h : state.act act = some after) : Accounted state after := by
  cases act with
  | activate path =>
    cases h
    exact accounted_activate state path
  | activate_after path delay elapsed =>
    obtain ⟨activations, hafter, rfl⟩ := Option.map_eq_some_iff.mp h
    unfold Activations.activate_after at hafter
    split_ifs at hafter
    · cases hafter
      exact accounted_activate state path
    · obtain ⟨moment, -, rfl⟩ := Option.map_eq_some_iff.mp hafter
      refine accounted_of_kept rfl rfl ?_
      intro other hout
      refine hout.of_told (fun _ => id) rfl Or.inl ?_
      exact Or.imp_right (And.imp_right presents_note)
  | push channel =>
    cases h
    exact accounted_of_kept rfl rfl fun path hout =>
      hout.of_stage (fun _ => List.mem_append_left _) id
  | insert_path channel path =>
    cases h
    refine ⟨[], (state.paths.lookup channel).toList, (List.append_nil _).symm, rfl, ?_⟩
    rintro other - (⟨told, htold, hlookup⟩ | hrest)
    · by_cases heq : told = channel
      · subst heq
        rw [hlookup]
        exact Or.inr (Or.inr (List.mem_singleton_self _))
      · exact Or.inl (Or.inl ⟨told, htold, (AList.lookup_insert_ne heq).trans hlookup⟩)
    · exact Or.inl (Or.inr hrest)
  | remove_path channel =>
    cases h
    refine ⟨[], (state.paths.lookup channel).toList, (List.append_nil _).symm, rfl, ?_⟩
    rintro other - (⟨told, htold, hlookup⟩ | hrest)
    · by_cases heq : told = channel
      · subst heq
        rw [hlookup]
        exact Or.inr (Or.inr (List.mem_singleton_self _))
      · exact Or.inl (Or.inl ⟨told, htold, (AList.lookup_erase_ne heq).trans hlookup⟩)
    · exact Or.inl (Or.inr hrest)
  | insert_dataflow index | remove_dataflow index =>
    cases h
    exact accounted_of_kept rfl rfl fun _ => id

/-- Only a thread that counts a message tells of it by itself. -/
theorem Told.set_duty {channel : ℕ} (h : state.Told channel) {thread : Fin others} {duty : Duty}
    (hduty : ∀ inbox counted, state.threads thread ≠ .counting inbox counted) :
    (state.set_duty thread duty).Told channel := by
  rcases h with ⟨other, inbox, hcounting⟩ | hrest
  · refine Or.inl ⟨other, inbox, ?_⟩
    change Function.update state.threads thread duty other = _
    rw [Function.update_of_ne, hcounting]
    rintro rfl
    exact hduty inbox channel hcounting
  · exact Or.inr hrest

/-- What an inbox holds is still there when there is more of it. -/
theorem told_of_more {inbox channel : ℕ} {found : Inbox} (hfound : state.inboxes[inbox]? = some found)
    {items : List ℕ} (h : ∃ held ∈ state.inboxes, channel ∈ held.items) :
    ∃ held ∈ state.inboxes.set inbox { found with items := found.items ++ items }, channel ∈ held.items := by
  obtain ⟨held, hmem, hchannel⟩ := h
  obtain ⟨index, hindex⟩ := List.mem_iff_getElem?.mp hmem
  by_cases heq : inbox = index
  · subst heq
    rw [hfound] at hindex
    cases hindex
    refine ⟨_, List.mem_set (List.getElem?_eq_some_iff.mp hfound).1 _, ?_⟩
    exact List.mem_append_left _ hchannel
  · refine ⟨held, ?_, hchannel⟩
    apply List.mem_of_getElem? (i := index)
    rw [List.getElem?_set_ne heq]
    exact hindex

theorem accounted_thread_act {thread : Fin others} {act : ThreadAct} (h : state.thread_act thread act = some after) :
    Accounted state after := by
  cases act with
  | push inbox channel =>
    simp only [State.thread_act] at h
    split_ifs at h with hidle
    cases h
    have hduty : ∀ inbox counted, state.threads thread ≠ .counting inbox counted := by
      rw [hidle.1]
      exact nofun
    refine accounted_of_kept rfl rfl ?_
    intro path hout
    exact hout.of_told (fun _ htold => htold.set_duty hduty) rfl Or.inl id
  | send =>
    simp only [State.thread_act] at h
    split at h
    case h_1 inbox channel hcounting =>
      obtain ⟨counters, hcounters, rfl⟩ := Option.map_eq_some_iff.mp h
      refine accounted_of_kept rfl rfl ?_
      intro path hout
      refine hout.of_told ?_ rfl Or.inl id
      rintro told (⟨other, index, hother⟩ | hinbox | hevent)
      · by_cases heq : other = thread
        · -- the count of the message is in the inbox now
          subst heq
          rw [hcounting] at hother
          cases hother
          refine Or.inr (Or.inl ⟨_, List.mem_set (List.getElem?_eq_some_iff.mp hcounters).1 _, ?_⟩)
          exact List.mem_append_right _ (List.mem_singleton_self _)
        · refine Or.inl ⟨other, index, ?_⟩
          change Function.update state.threads thread .unparking other = _
          rw [Function.update_of_ne heq, hother]
      · exact Or.inr (Or.inl (told_of_more hcounters hinbox))
      · exact Or.inr (Or.inr hevent)
    case h_2 => cases h
  | extend inbox items =>
    simp only [State.thread_act] at h
    split_ifs at h with hidle
    obtain ⟨queue, hqueue, rfl⟩ := Option.map_eq_some_iff.mp h
    have hduty : ∀ inbox counted, state.threads thread ≠ .counting inbox counted := by
      rw [hidle.1]
      exact nofun
    refine accounted_of_kept rfl rfl ?_
    intro path hout
    refine hout.of_told ?_ rfl Or.inl id
    intro told htold
    have hmore : Told { state with
        inboxes := state.inboxes.set inbox { queue with items := queue.items ++ items } } told :=
      htold.imp_right (Or.imp_left (told_of_more hqueue))
    exact hmore.set_duty hduty
  | activate path =>
    simp only [State.thread_act] at h
    split_ifs at h with hbatch
    cases h
    have hduty : ∀ inbox counted, state.threads thread ≠ .counting inbox counted := by
      rcases hbatch with hidle | hbatching
      · rw [hidle]
        exact nofun
      · rw [hbatching]
        exact nofun
    refine accounted_of_kept rfl rfl ?_
    intro other hout
    refine hout.of_told (fun _ htold => Told.set_duty htold hduty) rfl ?_ id
    exact fun hsent => Or.inl (List.mem_append_left _ hsent)
  | finish =>
    simp only [State.thread_act] at h
    split_ifs at h with hbatch
    cases h
    have hduty : ∀ inbox counted, state.threads thread ≠ .counting inbox counted := by
      rcases hbatch with hidle | hbatching
      · rw [hidle]
        exact nofun
      · rw [hbatching]
        exact nofun
    refine accounted_of_kept rfl rfl ?_
    intro path hout
    exact hout.of_told (fun _ htold => htold.set_duty hduty) rfl Or.inl id
  | unpark =>
    simp only [State.thread_act] at h
    split_ifs at h with hunparking
    cases h
    have hduty : ∀ inbox counted, state.threads thread ≠ .counting inbox counted := by
      rw [hunparking]
      exact nofun
    refine accounted_of_kept rfl rfl ?_
    intro path hout
    exact hout.of_told (fun _ htold => Told.set_duty htold hduty) rfl Or.inl id

theorem Accounted.step {event : Event others} (hstep : Step state event after) : Accounted state after := by
  cases event with
  | call duration =>
    simp only [Step, State.perform] at hstep
    split_ifs at hstep with houtside
    cases hstep
    refine accounted_of_kept rfl rfl ?_
    intro path hout
    apply hout.of_stage (fun _ => id)
    rw [houtside]
    exact id
  | receive => exact accounted_receive hstep
  | respond => exact accounted_respond hstep
  | advance now => exact accounted_advance hstep
  | decide_to_park elapsed => exact accounted_decide_to_park hstep
  | await_events => exact accounted_await_events hstep
  | unpark permitted => exact accounted_unpark hstep
  | step_dataflow => exact accounted_step_dataflow hstep
  | act act =>
    simp only [Step, State.perform] at hstep
    split_ifs at hstep
    exact accounted_act hstep
  | thread_act thread act => exact accounted_thread_act hstep

theorem accounted_of_run {events : List (Event others)} (h : Run Step state events after) : Accounted state after := by
  apply h.invariant (P := fun _ last => Accounted state last) (Accounted.refl state)
  intro _ _ _ _ hbefore hstep
  exact hbefore.trans (Accounted.step hstep)

/-! ### Parked -/

/-- The thread of the worker is blocked, and no other thread is about to unpark it. -/
structure Asleep (state : State others) (delay : Option Duration) (elapsed : Duration) (noted : List (List ℕ)) :
    Prop where
  stage : state.stage = .parked delay elapsed noted
  token : state.token = false
  threads : ∀ thread, state.threads thread = .idle

variable {delay : Option Duration} {elapsed : Duration} {noted : List (List ℕ)}

/-- Nothing waits for a worker that sleeps. -/
theorem Watchful.nothing_waits (h : state.Watchful) (hasleep : state.Asleep delay elapsed noted) :
    (∀ inbox ∈ state.inboxes, inbox.items = []) ∧ state.events = [] ∧ state.activations.rx = [] := by
  have hstage := hasleep.stage
  have hroused : ¬ state.Roused := by
    rintro (htoken | ⟨thread, hthread⟩)
    · rw [hasleep.token] at htoken
      cases htoken
    · rw [hasleep.threads] at hthread
      cases hthread
  refine ⟨fun inbox hmem => ?_, h.events _ _ _ hstage, ?_⟩
  · obtain ⟨index, hindex⟩ := List.mem_iff_getElem?.mp hmem
    by_contra hitems
    apply hroused
    apply h.inboxes index inbox hindex _ hitems
    rw [hstage]
    trivial
  · by_contra hsome
    have hlistened : state.stage.Listened := by
      rw [hstage]
      trivial
    rcases h.rx hlistened hsome with hno | ⟨thread, hthread⟩
    · exact hroused hno
    · rw [hasleep.threads] at hthread
      cases hthread

/-- What is outstanding while a worker sleeps has been activated since it decided to park. -/
theorem Watchful.outstanding_noted (h : state.Watchful) (hasleep : state.Asleep delay elapsed noted)
    {path : List ℕ} (hout : state.Outstanding path) : path ∈ noted := by
  obtain ⟨hinboxes, hevents, hrx⟩ := h.nothing_waits hasleep
  have hdecision : state.stage.decision = some (delay, elapsed, noted) := by
    rw [hasleep.stage]
    rfl
  rcases hout with ⟨channel, ⟨thread, inbox, hcounting⟩ | ⟨inbox, hmem, hchannel⟩ | hevent, -⟩ | hsent |
    hfresh | ⟨hclean, -⟩
  · rw [hasleep.threads] at hcounting
    cases hcounting
  · rw [hinboxes inbox hmem] at hchannel
    exact absurd hchannel List.not_mem_nil
  · rw [hevents] at hevent
    exact absurd hevent List.not_mem_nil
  · rw [hrx] at hsent
    exact absurd hsent List.not_mem_nil
  · exact h.active _ _ _ hdecision path (List.mem_of_mem_drop hfresh)
  · exact h.active _ _ _ hdecision path (List.mem_of_mem_take hclean)

end State

/-- In every run of a worker and any number of other threads, whatever its operators and the caller do:
    where the worker is blocked, and no other thread is in a call that wakes it, all inboxes have been
    received from, no activation waits, and no delayed activation comes before the time for which the
    worker is parked; and each path that was to be activated at any earlier state has been presented to its
    dataflow since then, unless its channel or its dataflow is gone.  Activations between the decision to
    park and parking are excepted: the worker notices them when it wakes. -/
theorem no_lost_wake_up {others : ℕ} {kinds : List Kind} {events more : List (Event others)} {state last : State others}
    {delay : Option Duration} {elapsed : Duration} {noted : List (List ℕ)}
    (hrun : Run Step (start others kinds) events state) (hmore : Run Step state more last)
    (hasleep : last.Asleep delay elapsed noted) :
    ((∀ inbox ∈ last.inboxes, inbox.items = []) ∧ last.events = [] ∧ last.activations.rx = []) ∧
    (∀ path ∈ last.activations.paths, path ∈ noted) ∧
    (∀ item ∈ last.activations.queue.items, item.2 ∈ noted ∨
      ∃ rest, delay = some rest ∧ elapsed.as_nanos + rest.as_nanos ≤ item.1.as_nanos) ∧
    ∃ presented forgotten, last.presented = state.presented ++ presented ∧
      last.forgotten = state.forgotten ++ forgotten ∧
      ∀ path ≠ [], state.Outstanding path → path ∈ noted ∨ path ∈ presented ∨ path ∈ forgotten := by
  have hwatchful := State.watchful_of_run (hrun.append hmore)
  have hdecision : last.stage.decision = some (delay, elapsed, noted) := by
    rw [hasleep.stage]
    rfl
  refine ⟨hwatchful.nothing_waits hasleep, hwatchful.active _ _ _ hdecision,
    hwatchful.moments _ _ _ hdecision, ?_⟩
  obtain ⟨presented, forgotten, hpresented, hforgotten, haccounted⟩ := State.accounted_of_run hmore
  refine ⟨presented, forgotten, hpresented, hforgotten, fun path hpath hout => ?_⟩
  rcases haccounted path hpath hout with hstill | hdone
  · exact Or.inl (hwatchful.outstanding_noted hasleep hstill)
  · exact Or.inr hdone

/-! ### An example -/

/-- Thread zero puts a message into channel five. -/
def wake_up_events : List (Event 1) :=
  [.act (.insert_dataflow 0), .act (.insert_path 5 [0, 1]), .thread_act 0 (.push 0 5)]

/-- The worker has passed the inbox when the thread sends the count, and decides to park.  It finds the
    permit, and presents the path in its next call; in the call after this it stays parked. -/
def wake_up_more : List (Event 1) :=
  [.call none, .receive, .thread_act 0 .send, .receive, .receive, .respond, .advance default,
    .decide_to_park default, .await_events, .thread_act 0 .unpark, .unpark true,
    .call none, .receive, .receive, .receive, .receive, .respond, .advance default, .decide_to_park default,
    .step_dataflow, .step_dataflow,
    .call none, .receive, .receive, .receive, .respond, .advance default, .decide_to_park default,
    .await_events]

theorem wake_up_performs :
    (wake_up_events.foldlM State.perform (start 1 [.counters, .merge_queue])).isSome := by decide

def wake_up_state : State 1 :=
  (wake_up_events.foldlM State.perform (start 1 [.counters, .merge_queue])).get wake_up_performs

theorem wake_up_more_performs : (wake_up_more.foldlM State.perform wake_up_state).isSome := by decide

def wake_up_last : State 1 := (wake_up_more.foldlM State.perform wake_up_state).get wake_up_more_performs

theorem no_lost_wake_up_example :
    wake_up_state.Outstanding [0, 1] ∧ wake_up_last.Asleep none default [] ∧
    ∃ presented forgotten, wake_up_last.presented = wake_up_state.presented ++ presented ∧
      wake_up_last.forgotten = wake_up_state.forgotten ++ forgotten ∧
      ([0, 1] ∈ presented ∨ [0, 1] ∈ forgotten) := by
  have hout : wake_up_state.Outstanding [0, 1] := Or.inl ⟨5, Or.inl ⟨0, 0, by decide⟩, by decide⟩
  have hasleep : wake_up_last.Asleep none default [] := ⟨by decide, by decide, by decide⟩
  have hstate : Run Step (start 1 [.counters, .merge_queue]) wake_up_events wake_up_state :=
    Run.of_foldlM (Option.some_get wake_up_performs).symm
  have hlast : Run Step wake_up_state wake_up_more wake_up_last :=
    Run.of_foldlM (Option.some_get wake_up_more_performs).symm
  obtain ⟨-, -, -, presented, forgotten, hpresented, hforgotten, hdone⟩ :=
    no_lost_wake_up hstate hlast hasleep
  refine ⟨hout, hasleep, presented, forgotten, hpresented, hforgotten, ?_⟩
  exact (hdone [0, 1] (by decide) hout).resolve_left List.not_mem_nil

end Timely.Parking
