/-
  Timely/Operators/StateMachine.lean
  ==================================
  **State machines apply updates in time order**
  (`timely/src/dataflow/operators/aggregation/state_machine.rs`).

  A batch of updates is stashed if the frontier has an element before its time,
  and applied at once otherwise: its time is then an element of the frontier
  itself, and nothing earlier can arrive or be waiting.  What is stashed is
  applied when the frontier has passed its time.

  The operator does not keep a history.  Here it does, to say in which order
  `fold` has been called.  What these calls amount to is said without the
  operator: each key has a state of its own, which its values are folded into one
  after the other, and the output is what `fold` returns for them.
-/
import Timely.Operators.Stash

set_option linter.unusedSectionVars false

namespace Timely

open Library

variable {T : Type} [PartialOrder T] [DecidableLE T] [DecidableEq T] [Ord T] [LinearExtension T]
variable [PriorityHeap (Capability T) earlier]
variable {K V D R : Type} [DecidableEq K]

/-- Some element of the frontier is less than `time`. -/
def MutableAntichain.less_than (antichain : MutableAntichain T) (time : T) : Bool :=
  antichain.frontier.any fun least => Timely.less_than least time

namespace StateMachine

/-- The states of the keys, what has been given to the output in this turn, and the updates that `fold`
    has been called with so far. -/
structure Machine (T K V D R : Type) where
  states : AList fun _ : K => D
  output : List (T × R)
  applied : List (T × (K × V))

/-- Apply one update to the state of its key, which `fold` may ask to remove. -/
def apply_update (fold : K → V → D → D × Bool × List R) (default : D) (time : T) (machine : Machine T K V D R)
    (update : K × V) : Machine T K V D R :=
  let (state, remove, output) := fold update.1 update.2 ((machine.states.lookup update.1).getD default)
  let states := machine.states.insert update.1 state
  { states := if remove then states.erase update.1 else states
    output := machine.output ++ output.map fun result => (time, result)
    applied := machine.applied ++ [(time, update)] }

/-- What the operator keeps. -/
structure State (T K V D : Type) [Ord T] [PriorityHeap (Capability T) earlier] where
  pending : AList fun _ : T => List (K × V)
  states : AList fun _ : K => D
  notificator : FrontierNotificator T
  applied : List (T × (K × V))

/-- The operator before it is scheduled for the first time. -/
def start : State T K V D := ⟨∅, ∅, FrontierNotificator.from_iter [], []⟩

/-- What the operator works with in a session. -/
structure Working (T K V D R : Type) [Ord T] [PriorityHeap (Capability T) earlier] where
  pending : AList fun _ : T => List (K × V)
  machine : Machine T K V D R
  notificator : Notificator T

/-- A notification: apply what is pending for its time. -/
def notified (fold : K → V → D → D × Bool × List R) (default : D)
    (state : (AList fun _ : T => List (K × V)) × Machine T K V D R) (time : T) :
    (AList fun _ : T => List (K × V)) × Machine T K V D R :=
  match state.1.lookup time with
  | some pend => (state.1.erase time, pend.foldl (apply_update fold default time) state.2)
  | none => state

/-- Read one batch: stash it if it is not time yet, and otherwise process it immediately. -/
def read_batch (fold : K → V → D → D × Bool × List R) (default : D) (internal : Internal)
    (frontier : MutableAntichain T) (working : Working T K V D R) (batch : T × List (K × V)) :
    Working T K V D R :=
  if frontier.less_than batch.1 then
    { working with
      pending := entry_update working.pending batch.1 [] fun pend => pend ++ batch.2
      notificator := working.notificator.notify_at ⟨batch.1, internal⟩ }
  else { working with machine := batch.2.foldl (apply_update fold default batch.1) working.machine }

/-- One scheduling of the operator: it goes through each available notification, and then reads its
    input. -/
def turn (fold : K → V → D → D × Bool × List R) (default : D) (internal : Internal) (state : State T K V D)
    (turn : Turn T (K × V)) : State T K V D × List (T × R) :=
  let session := Notificator.new [turn.frontier] state.notificator
  let ((pending, machine), notificator) := session.for_each
    (fun state cap _ => notified fold default state cap.time)
    (session.inner.available.items.length + 1) (state.pending, ⟨state.states, [], state.applied⟩)
  let working := turn.batches.foldl (read_batch fold default internal turn.frontier)
    ⟨pending, machine, notificator⟩
  (⟨working.pending, working.machine.states, working.notificator.inner, working.machine.applied⟩,
    working.machine.output)

/-- Successive turns, with all that has been given to the output. -/
def run (fold : K → V → D → D × Bool × List R) (default : D) (internal : Internal)
    (turns : List (Turn T (K × V))) : State T K V D × List (T × R) :=
  turns.foldl (fun state next =>
    ((turn fold default internal state.1 next).1, state.2 ++ (turn fold default internal state.1 next).2)) (start, [])

/-! ### What updates amount to -/

/-- The values that updates bring for a key, in order. -/
def valuesAt (key : K) (log : List (T × (K × V))) : List V :=
  (log.filter fun record => record.2.1 = key).map fun record => record.2.2

/-- What is kept for a key after one more value for it: the state that `fold` leaves behind, or nothing
    if it asks for the state to be removed. -/
def fold_value (fold : K → V → D → D × Bool × List R) (default : D) (key : K) (kept : Option D) (val : V) :
    Option D :=
  match fold key val (kept.getD default) with
  | (_, true, _) => none
  | (state, false, _) => some state

/-- What is kept for a key after these values for it, one after the other. -/
def fold_values (fold : K → V → D → D × Bool × List R) (default : D) (key : K) (vals : List V) : Option D :=
  vals.foldl (fold_value fold default key) none

/-- What `fold` returns for an update, with the state that the values before it have left to its key. -/
def reply (fold : K → V → D → D × Bool × List R) (default : D) (before : List (T × (K × V)))
    (record : T × (K × V)) : List (T × R) :=
  (fold record.2.1 record.2.2
    ((fold_values fold default record.2.1 (valuesAt record.2.1 before)).getD default)).2.2.map
      fun result => (record.1, result)

/-- What `fold` returns for updates that come after other ones. -/
def replies (fold : K → V → D → D × Bool × List R) (default : D) (before : List (T × (K × V))) :
    List (T × (K × V)) → List (T × R)
  | [] => []
  | record :: log => reply fold default before record ++ replies fold default (before ++ [record]) log

/-! ### Applying updates -/

variable {fold : K → V → D → D × Bool × List R} {default : D}

/-- Apply one update, with its time. -/
def apply_record (fold : K → V → D → D × Bool × List R) (default : D) (machine : Machine T K V D R)
    (record : T × (K × V)) : Machine T K V D R :=
  apply_update fold default record.1 machine record.2

theorem applied_foldl (log : List (T × (K × V))) (machine : Machine T K V D R) :
    (log.foldl (apply_record fold default) machine).applied = machine.applied ++ log := by
  induction log generalizing machine with
  | nil => exact (List.append_nil _).symm
  | cons record log ih =>
    rw [List.foldl_cons, ih]
    exact List.append_assoc _ _ _

variable (fold default) in
/-- What is done to the states does not depend on the output and the history before. -/
theorem foldl_apply_frame (log : List (T × (K × V))) (machine other : Machine T K V D R)
    (hsame : machine.states = other.states) (before : List (T × R)) (houtput : machine.output = before ++ other.output) :
    (log.foldl (apply_record fold default) machine).states = (log.foldl (apply_record fold default) other).states ∧
      (log.foldl (apply_record fold default) machine).output =
        before ++ (log.foldl (apply_record fold default) other).output := by
  induction log generalizing machine other with
  | nil => exact ⟨hsame, houtput⟩
  | cons record log ih =>
    rw [List.foldl_cons, List.foldl_cons]
    refine ih _ _ ?_ ?_
    · unfold apply_record apply_update
      rw [hsame]
    · unfold apply_record apply_update
      dsimp only
      rw [hsame, houtput, List.append_assoc]

theorem valuesAt_concat (key : K) (log : List (T × (K × V))) (record : T × (K × V)) :
    valuesAt key (log ++ [record]) = valuesAt key log ++ if record.2.1 = key then [record.2.2] else [] := by
  simp only [valuesAt, List.filter_append, List.map_append]
  by_cases hkey : record.2.1 = key <;> simp [hkey]

theorem replies_concat (before log : List (T × (K × V))) (record : T × (K × V)) :
    replies fold default before (log ++ [record]) =
      replies fold default before log ++ reply fold default (before ++ log) record := by
  induction log generalizing before with
  | nil => simp [replies]
  | cons first log ih => simp [replies, ih]

variable (fold default) in
/-- One update: its key gets the state that `fold` leaves behind, and the other keys keep theirs. -/
theorem lookup_apply_record (machine : Machine T K V D R) (record : T × (K × V)) (key : K) :
    (apply_record fold default machine record).states.lookup key =
      if record.2.1 = key then fold_value fold default key (machine.states.lookup key) record.2.2
      else machine.states.lookup key := by
  obtain ⟨time, updated, val⟩ := record
  rcases hfold : fold updated val ((machine.states.lookup updated).getD default) with ⟨state, remove, output⟩
  unfold apply_record apply_update
  simp only [hfold]
  by_cases hkey : updated = key
  · subst hkey
    cases remove with
    | true => simp [fold_value, hfold]
    | false => simp [fold_value, hfold]
  · cases remove with
    | true => simp [hkey, AList.lookup_erase_ne (Ne.symm hkey), AList.lookup_insert_ne (Ne.symm hkey)]
    | false => simp [hkey, AList.lookup_insert_ne (Ne.symm hkey)]

theorem foldl_apply_update (time : T) (updates : List (K × V)) (machine : Machine T K V D R) :
    updates.foldl (apply_update fold default time) machine =
      (updates.map fun update => (time, update)).foldl (apply_record fold default) machine := by
  rw [List.foldl_map]
  rfl

variable (fold default) in
/-- The notifications apply what they release, in order. -/
theorem foldl_notified (times : List T) (pending : AList fun _ : T => List (K × V))
    (first : Machine T K V D R) (log : List (T × (K × V))) :
    times.foldl (notified fold default) (pending, log.foldl (apply_record fold default) first) =
      ((times.foldl (release fun _ pend => pend) (pending, log)).1,
        (times.foldl (release fun _ pend => pend) (pending, log)).2.foldl (apply_record fold default) first) := by
  induction times generalizing pending log with
  | nil => rfl
  | cons time times ih =>
    have hone : notified fold default (pending, log.foldl (apply_record fold default) first) time =
        ((release (fun _ pend => pend) (pending, log) time).1,
          (release (fun _ pend => pend) (pending, log) time).2.foldl (apply_record fold default) first) := by
      unfold notified release
      dsimp only
      cases pending.lookup time with
      | none => rfl
      | some pend =>
        dsimp only
        rw [foldl_apply_update, List.foldl_append]
    rw [List.foldl_cons, List.foldl_cons, hone, ih]

/-! ### What is released is in order -/

/-- What is released for times in order is in order. -/
theorem release_in_order (pending : AList fun _ : T => List (K × V)) {times : List T}
    {log : List (T × (K × V))} (htimes : times.Pairwise fun early late => ¬ late < early)
    (hlog : log.Pairwise fun early late => ¬ late.1 < early.1)
    (hbefore : ∀ record ∈ log, ∀ time ∈ times, ¬ time < record.1) :
    (times.foldl (release fun _ pend => pend) (pending, log)).2.Pairwise fun early late => ¬ late.1 < early.1 := by
  induction times generalizing pending log with
  | nil => exact hlog
  | cons time times ih =>
    obtain ⟨hfirst, hrest⟩ := List.pairwise_cons.mp htimes
    rw [List.foldl_cons, ← Prod.mk.eta (p := release (fun _ pend => pend) (pending, log) time),
      Account.output_of_release]
    have hnew : ∀ record ∈ ((pending.lookup time).elim [] fun pend => pend).map fun item => (time, item),
        record.1 = time := by
      intro record hrecord
      obtain ⟨_, -, rfl⟩ := List.mem_map.mp hrecord
      rfl
    refine ih _ hrest ?_ ?_
    · refine List.pairwise_append.mpr ⟨hlog, ?_, ?_⟩
      · exact List.pairwise_of_forall_mem_list fun early hearly late hlate => by
          rw [hnew early hearly, hnew late hlate]
          exact lt_irrefl time
      · intro early hearly late hlate
        rw [hnew late hlate]
        exact hbefore early hearly time List.mem_cons_self
    · intro record hrecord later hlater
      rcases List.mem_append.mp hrecord with hold | hadded
      · exact hbefore record hold later (List.mem_cons_of_mem _ hlater)
      · rw [hnew record hadded]
        exact hfirst later hlater

/-! ### The account of all updates -/

/-- All updates that have arrived have been applied or are pending, and what is pending waits to be
    notified.  Updates have been applied in order, and for each of them the frontiers are past all
    earlier times. -/
structure Account (notificator : Notificator T) (arrived applied : List (T × (K × V)))
    (pending : AList fun _ : T => List (K × V)) : Prop where
  exact : ∀ time, (recordsAt time applied ++ (pending.lookup time).getD []).Perm (recordsAt time arrived)
  held : ∀ time pend, pending.lookup time = some pend → notificator.inner.Waiting time
  ordered : applied.Pairwise fun early late => ¬ late.1 < early.1
  safe : ∀ record ∈ applied, ∀ time, time < record.1 → beyond notificator.frontiers time = true

/-- Between turns what waits is not past the frontiers. -/
structure Settled (notificator : Notificator T) (arrived applied : List (T × (K × V)))
    (pending : AList fun _ : T => List (K × V)) : Prop extends
    Account notificator arrived applied pending where
  left : ∀ time, notificator.inner.Waiting time → beyond notificator.frontiers time = false

variable {notificator after : Notificator T} {arrived applied : List (T × (K × V))}
  {pending : AList fun _ : T => List (K × V)}

/-- The notifications of a session apply what is pending for them, in order and after what has been
    applied before. -/
theorem Settled.notified {frontiers later : List (MutableAntichain T)} {inner : FrontierNotificator T}
    (h : Settled ⟨frontiers, inner⟩ arrived applied pending) (hadvances : Advances frontiers later)
    {caps : List (Capability T)} (hcaps : (Notificator.new later inner).Exhausts caps after) :
    ∃ left log, (caps.map Capability.time).foldl (release fun _ pend => pend) (pending, []) = (left, log) ∧
      Settled after arrived (applied ++ log) left := by
  have hmem : ∀ time, time ∈ caps.map Capability.time ↔ inner.Waiting time ∧ beyond later time = true := by
    intro time
    rw [List.mem_map, hcaps.delivered time, Notificator.waiting_new]
    exact Iff.rfl
  obtain ⟨hlookup, log, hlog, htimes, hrecords⟩ :=
    Timely.Account.foldl_release (fun _ pend => pend) (caps.map Capability.time) pending []
  have hsorted : log.Pairwise fun early late => ¬ late.1 < early.1 := by
    have hdelivered : (caps.map Capability.time).Pairwise fun early late : T => ¬ late < early := by
      refine (List.pairwise_map.mpr hcaps.sorted).imp fun hbefore hless => ?_
      exact hless.ne (sortsBefore_antisymm (LinearExtension.isLE_of_le hless.le) hbefore)
    have hreleased := release_in_order pending hdelivered List.Pairwise.nil
      (fun _ hnone => absurd hnone List.not_mem_nil)
    rwa [hlog] at hreleased
  have hfrontiers : after.frontiers = later := hcaps.frontiers
  refine ⟨_, log, Prod.ext rfl hlog, ⟨fun time => ?_, fun time pend hsome => ?_, ?_, ?_⟩, fun time hwait => ?_⟩
  · rw [hlookup, recordsAt_append, hrecords]
    split
    case isTrue =>
      cases hpending : pending.lookup time with
      | none =>
        have hexact := h.exact time
        rw [hpending] at hexact
        simpa using hexact
      | some pend =>
        have hexact := h.exact time
        rw [hpending] at hexact
        simpa using hexact
    case isFalse =>
      rw [List.append_nil]
      exact h.exact time
  · rw [hlookup] at hsome
    split at hsome
    case isTrue => cases hsome
    case isFalse hnot =>
      have hwait := h.held time pend hsome
      refine (hcaps.left time).mpr ⟨(Notificator.waiting_new inner later time).mpr hwait, ?_⟩
      rw [hmem, not_and] at hnot
      exact Bool.eq_false_iff.mpr (hnot hwait)
  · refine List.pairwise_append.mpr ⟨h.ordered, hsorted, fun early hearly late hlate hless => ?_⟩
    -- it has been waiting while the frontiers were past it
    have hbeyond := h.safe early hearly late.1 hless
    rw [h.left late.1 ((hmem late.1).mp (htimes late hlate)).1] at hbeyond
    cases hbeyond
  · intro record hrecord time hless
    rw [hfrontiers]
    rcases List.mem_append.mp hrecord with hold | hnew
    · exact hadvances.beyond (h.safe record hold time hless)
    · exact beyond_of_le hless.le ((hmem record.1).mp (htimes record hnew)).2
  · rw [hfrontiers]
    exact ((hcaps.left time).mp hwait).2

/-- Stashing updates for a time that the frontiers have not passed. -/
theorem Settled.stash (h : Settled notificator arrived applied pending) {time : T}
    (hnot : beyond notificator.frontiers time = false) (internal : Internal) (updates : List (K × V)) :
    Settled (notificator.notify_at ⟨time, internal⟩) (arrived ++ updates.map fun update => (time, update)) applied
      (entry_update pending time [] fun pend => pend ++ updates) := by
  have hwaiting := Notificator.waiting_notify_at notificator ⟨time, internal⟩
  refine ⟨⟨fun other => ?_, fun other pend hsome => ?_, h.ordered, h.safe⟩, fun other hwait => ?_⟩
  · rw [recordsAt_append]
    by_cases hsame : other = time
    · subst hsame
      rw [lookup_entry_update_same, recordsAt_map_same, Option.getD_some, ← List.append_assoc]
      exact (h.exact other).append_right updates
    · rw [lookup_entry_update_other hsame, recordsAt_map_other (Ne.symm hsame), List.append_nil]
      exact h.exact other
  · refine (hwaiting other).mpr ?_
    by_cases hsame : other = time
    · exact Or.inr hsame.symm
    · rw [lookup_entry_update_other hsame] at hsome
      exact Or.inl (h.held other pend hsome)
  · rcases (hwaiting other).mp hwait with hold | rfl
    · exact h.left other hold
    · exact hnot

/-- Applying updates at once for a time with no element of the frontier before it. -/
theorem Settled.apply (h : Settled notificator arrived applied pending) {frontier : MutableAntichain T}
    (hfrontier : notificator.frontiers = [frontier]) {time : T} (hnot : beyond notificator.frontiers time = false)
    (hfirst : frontier.less_than time = false) (updates : List (K × V)) :
    Settled notificator (arrived ++ updates.map fun update => (time, update))
      (applied ++ updates.map fun update => (time, update)) pending := by
  have hnew : ∀ record ∈ updates.map fun update => (time, update), record.1 = time := by
    intro record hrecord
    obtain ⟨_, -, rfl⟩ := List.mem_map.mp hrecord
    rfl
  refine ⟨⟨fun other => ?_, h.held, ?_, ?_⟩, h.left⟩
  · rw [recordsAt_append, recordsAt_append]
    by_cases hsame : other = time
    · subst hsame
      rw [recordsAt_map_same, List.append_assoc]
      have hswap : (recordsAt other applied ++ (updates ++ (pending.lookup other).getD [])).Perm
          (recordsAt other applied ++ ((pending.lookup other).getD [] ++ updates)) :=
        List.perm_append_comm.append_left _
      refine hswap.trans ?_
      rw [← List.append_assoc]
      exact (h.exact other).append_right updates
    · rw [recordsAt_map_other (Ne.symm hsame), List.append_nil, List.append_nil]
      exact h.exact other
  · refine List.pairwise_append.mpr ⟨h.ordered, ?_, fun early hearly late hlate hless => ?_⟩
    · exact List.pairwise_of_forall_mem_list fun early hearly late hlate => by
        rw [hnew early hearly, hnew late hlate]
        exact lt_irrefl time
    · rw [hnew late hlate] at hless
      rw [h.safe early hearly time hless] at hnot
      cases hnot
  · intro record hrecord other hless
    rcases List.mem_append.mp hrecord with hold | hadded
    · exact h.safe record hold other hless
    · -- an element of the frontier that holds it back would be before the time
      rw [hnew record hadded] at hless
      rw [hfrontier, beyond_iff]
      intro f hf least hleast hle
      obtain rfl := List.mem_singleton.mp hf
      exact List.any_eq_false.mp hfirst least hleast (less_than_iff.mpr (hle.trans_lt hless))

variable (fold default) in
theorem read_batches (internal : Internal) (frontier : MutableAntichain T) (batches : List (T × List (K × V)))
    (working : Working T K V D R) (hsession : working.notificator.Session)
    (hfrontier : working.notificator.frontiers = [frontier])
    (h : Settled working.notificator arrived working.machine.applied working.pending)
    (hnot : ∀ batch ∈ batches, beyond [frontier] batch.1 = false) :
    ∃ last, ∃ log : List (T × (K × V)), batches.foldl (read_batch fold default internal frontier) working = last ∧
      last.machine = log.foldl (apply_record fold default) working.machine ∧ last.notificator.Session ∧
      last.notificator.frontiers = [frontier] ∧
      Settled last.notificator
        (arrived ++ batches.flatMap fun batch => batch.2.map fun update => (batch.1, update))
        last.machine.applied last.pending := by
  induction batches generalizing working arrived with
  | nil => exact ⟨working, [], rfl, rfl, hsession, hfrontier, (List.append_nil arrived).symm ▸ h⟩
  | cons batch batches ih =>
    obtain ⟨time, updates⟩ := batch
    rw [List.forall_mem_cons] at hnot
    have hnow : beyond working.notificator.frontiers time = false := hfrontier ▸ hnot.1
    rw [List.foldl_cons, List.flatMap_cons, ← List.append_assoc]
    unfold read_batch
    cases hless : frontier.less_than time with
    | true => exact ih _ (hsession.notify_at ⟨time, internal⟩) hfrontier (h.stash hnow internal updates) hnot.2
    | false =>
      have happlied := h.apply hfrontier hnow hless updates
      obtain ⟨last, log, hlast, hmachine, hrest⟩ := ih
        { working with machine := updates.foldl (apply_update fold default time) working.machine }
        hsession hfrontier (by
          dsimp only
          rw [foldl_apply_update, applied_foldl]
          exact happlied) hnot.2
      refine ⟨last, updates.map (fun update => (time, update)) ++ log, hlast, ?_, hrest⟩
      rw [hmachine, List.foldl_append, ← foldl_apply_update]

/-! ### Over whole runs -/

variable (fold default) in
/-- A turn applies updates to what the operator keeps, and stashes the other ones. -/
theorem turn_spec {frontier : MutableAntichain T} {state : State T K V D} {next : Turn T (K × V)}
    (hpast : FrontierNotificator.Past (state.notificator, [frontier]))
    (h : Settled ⟨[frontier], state.notificator⟩ arrived state.applied state.pending)
    (internal : Internal) (hadvances : Advances [frontier] [next.frontier])
    (hbatches : ∀ batch ∈ next.batches, beyond [next.frontier] batch.1 = false) :
    ∃ last : Working T K V D R, ∃ log : List (T × (K × V)), turn fold default internal state next =
        (⟨last.pending, last.machine.states, last.notificator.inner, last.machine.applied⟩, last.machine.output) ∧
      last.machine = log.foldl (apply_record fold default) ⟨state.states, [], state.applied⟩ ∧
      FrontierNotificator.Past (last.notificator.inner, [next.frontier]) ∧
      Settled ⟨[next.frontier], last.notificator.inner⟩ (arrived ++ next.records) last.machine.applied
        last.pending := by
  have hopen : (Notificator.new [next.frontier] state.notificator).Session := Notificator.session_new hpast hadvances
  obtain ⟨caps, hcaps, hstate⟩ := hopen.for_each (fun state cap _ => notified fold default state cap.time)
    (Nat.lt_succ_self _) (state.pending, (⟨state.states, [], state.applied⟩ : Machine T K V D R))
  generalize hloop : ((Notificator.new [next.frontier] state.notificator).for_each
    (fun state cap _ => notified fold default state cap.time) _
    (state.pending, (⟨state.states, [], state.applied⟩ : Machine T K V D R))) = looped at hcaps hstate
  obtain ⟨left, log, hlog, hsettled⟩ := h.notified hadvances hcaps
  have hnotified := foldl_notified fold default (caps.map Capability.time) state.pending
    (⟨state.states, [], state.applied⟩ : Machine T K V D R) []
  rw [hlog, List.foldl_map] at hnotified
  obtain ⟨applied, session⟩ := looped
  obtain rfl : applied = (left, log.foldl (apply_record fold default) ⟨state.states, [], state.applied⟩) :=
    hstate.trans hnotified
  have hfrontiers : session.frontiers = [next.frontier] := hcaps.frontiers
  have hsession : session.Session :=
    ⟨hcaps.past, fun time hpending => hsettled.left time (Or.inl hpending)⟩
  obtain ⟨last, more, hlast, hdone, hclosed, hsame, haccount⟩ := read_batches fold default internal next.frontier
    next.batches ⟨left, log.foldl (apply_record fold default) ⟨state.states, [], state.applied⟩, session⟩
    hsession hfrontiers (by
      dsimp only
      rw [applied_foldl]
      exact hsettled) hbatches
  have hnotificator : (⟨[next.frontier], last.notificator.inner⟩ : Notificator T) = last.notificator := by
    rw [← hsame]
  refine ⟨last, log ++ more, ?_, ?_, ?_, ?_⟩
  · unfold turn
    dsimp only
    rw [hloop]
    dsimp only
    rw [hlast]
  · rw [hdone, List.foldl_append]
  · rw [← hsame]
    exact hclosed.past
  · rw [hnotificator]
    exact haccount

/-- What updates make of a machine that nothing has been applied to. -/
def applying (fold : K → V → D → D × Bool × List R) (default : D) (applied : List (T × (K × V))) :
    Machine T K V D R :=
  applied.foldl (apply_record fold default) ⟨∅, [], []⟩

variable (fold default) in
/-- Each key has the state that its values have been folded into. -/
theorem lookup_applying (applied : List (T × (K × V))) (key : K) :
    (applying fold default applied : Machine T K V D R).states.lookup key =
      fold_values fold default key (valuesAt key applied) := by
  induction applied using List.reverseRecOn with
  | nil => rfl
  | append_singleton applied record ih =>
    have hlast : (applying fold default (applied ++ [record]) : Machine T K V D R) =
        apply_record fold default (applying fold default applied) record := List.foldl_concat _ _ _ _
    rw [hlast, lookup_apply_record, ih, valuesAt_concat]
    by_cases hkey : record.2.1 = key
    · rw [if_pos hkey, if_pos hkey]
      exact (List.foldl_concat _ _ _ _).symm
    · rw [if_neg hkey, if_neg hkey, List.append_nil]

variable (fold default) in
/-- The output is what `fold` returns for the updates. -/
theorem output_applying (applied : List (T × (K × V))) :
    (applying fold default applied : Machine T K V D R).output = replies fold default [] applied := by
  induction applied using List.reverseRecOn with
  | nil => rfl
  | append_singleton applied record ih =>
    have hlast : (applying fold default (applied ++ [record]) : Machine T K V D R) =
        apply_record fold default (applying fold default applied) record := List.foldl_concat _ _ _ _
    have houtput : (apply_record fold default (applying fold default applied) record : Machine T K V D R).output =
        (applying fold default applied : Machine T K V D R).output ++ reply fold default applied record := by
      unfold reply
      rw [← lookup_applying]
      rfl
    rw [hlast, houtput, ih, replies_concat, List.nil_append]

/-- Between turns: the account of all updates; and the states and the output are what the updates that
    have been applied have made of them. -/
structure Between (fold : K → V → D → D × Bool × List R) (default : D) (frontier : MutableAntichain T)
    (turns : List (Turn T (K × V))) (state : State T K V D × List (T × R)) : Prop where
  past : FrontierNotificator.Past (state.1.notificator, [frontier])
  settled : Settled ⟨[frontier], state.1.notificator⟩ (turns.flatMap Turn.records) state.1.applied state.1.pending
  states : (applying fold default state.1.applied : Machine T K V D R).states = state.1.states
  output : (applying fold default state.1.applied : Machine T K V D R).output = state.2

theorem Between.turn {frontier : MutableAntichain T} {turns : List (Turn T (K × V))}
    {state : State T K V D × List (T × R)} {next : Turn T (K × V)}
    (h : Between fold default frontier turns state) (internal : Internal)
    (hadvances : Advances [frontier] [next.frontier])
    (hbatches : ∀ batch ∈ next.batches, beyond [next.frontier] batch.1 = false) :
    Between fold default next.frontier (turns ++ [next])
      ((StateMachine.turn fold default internal state.1 next).1,
        state.2 ++ (StateMachine.turn fold default internal state.1 next).2) := by
  obtain ⟨last, log, hturn, hmachine, hpast, hsettled⟩ :=
    turn_spec fold default h.past h.settled internal hadvances hbatches
  obtain ⟨hstates, houtput⟩ := foldl_apply_frame fold default log
    (applying fold default state.1.applied) ⟨state.1.states, [], state.1.applied⟩ h.states state.2
    (by rw [h.output, List.append_nil])
  -- the updates of this turn come after all the ones before
  have happlied : (applying fold default last.machine.applied : Machine T K V D R) =
      log.foldl (apply_record fold default) (applying fold default state.1.applied) := by
    rw [hmachine, applied_foldl]
    exact List.foldl_append
  rw [hturn]
  refine ⟨hpast, ?_, ?_, ?_⟩
  · rw [List.flatMap_append, List.flatMap_singleton]
    exact hsettled
  · dsimp only
    rw [happlied, hstates, hmachine]
  · dsimp only
    rw [happlied, houtput, hmachine]

theorem Between.run {frontier : MutableAntichain T} {turns more : List (Turn T (K × V))}
    {state : State T K V D × List (T × R)} (h : Between fold default frontier turns state) (internal : Internal)
    (hvalid : ValidTurns frontier more) :
    Between fold default (more.foldl (fun _ next => next.frontier) frontier) (turns ++ more)
      (more.foldl (fun state next =>
        ((StateMachine.turn fold default internal state.1 next).1,
          state.2 ++ (StateMachine.turn fold default internal state.1 next).2)) state) := by
  induction more generalizing frontier turns state with
  | nil =>
    rw [List.append_nil]
    exact h
  | cons next more ih =>
    obtain ⟨hadvances, hbatches, hrest⟩ := hvalid
    have hlast := ih (h.turn internal hadvances hbatches) hrest
    rw [List.append_assoc] at hlast
    exact hlast

/-- In every run `fold` has been called for updates of different times in their order, at most once for
    each; and exactly once for each if the frontier is empty and the operator has been scheduled.  What is
    kept for a key is what `fold` has made of the values it has been called with for that key, one after
    the other, and the output is what these calls have returned. -/
theorem state_machine_in_order (fold : K → V → D → D × Bool × List R) (default : D) (internal : Internal)
    {initial : MutableAntichain T} {turns : List (Turn T (K × V))} (hvalid : ValidTurns initial turns) :
    (run fold default internal turns).1.applied.Pairwise (fun early late => ¬ late.1 < early.1) ∧
    (∀ time, (recordsAt time (run fold default internal turns).1.applied).Subperm
      (recordsAt time (turns.flatMap Turn.records))) ∧
    (∀ final ∈ turns.getLast?, final.frontier.frontier = [] → ∀ time,
      (recordsAt time (run fold default internal turns).1.applied).Perm
        (recordsAt time (turns.flatMap Turn.records))) ∧
    (∀ key, (run fold default internal turns).1.states.lookup key =
      fold_values fold default key (valuesAt key (run fold default internal turns).1.applied)) ∧
    (run fold default internal turns).2 =
      replies fold default [] (run fold default internal turns).1.applied := by
  have hstart : Between fold default initial [] ((start, []) : State T K V D × List (T × R)) :=
    { past := FrontierNotificator.past_from_iter [] [initial]
      settled :=
        { exact := fun _ => List.Perm.refl _
          held := fun _ _ hsome => by cases hsome
          ordered := List.Pairwise.nil
          safe := fun _ hmem => absurd hmem List.not_mem_nil
          left := fun time hwait => absurd hwait (Notificator.not_waiting_from_iter time) }
      states := rfl
      output := rfl }
  have hrun := hstart.run internal hvalid
  rw [List.nil_append] at hrun
  refine ⟨hrun.settled.ordered, fun time => ?_, fun final hfinal hempty time => ?_, fun key => ?_, ?_⟩
  · have hexact := hrun.settled.exact time
    exact (List.sublist_append_left _ _).subperm.trans hexact.subperm
  · obtain ⟨before, rfl⟩ := List.getLast?_eq_some_iff.mp hfinal
    have hexact := hrun.settled.exact time
    rw [foldl_frontier] at hrun
    have hnone : (run fold default internal (before ++ [final])).1.pending.lookup time = none := by
      cases hpending : (run fold default internal (before ++ [final])).1.pending.lookup time with
      | none => rfl
      | some pend =>
        have hnot := hrun.settled.left time (hrun.settled.held time pend hpending)
        rw [beyond_of_empty hempty] at hnot
        cases hnot
    unfold run at hnone
    rw [hnone, Option.getD_none, List.append_nil] at hexact
    exact hexact
  · rw [← lookup_applying]
    exact congrArg _ hrun.states.symm
  · rw [← output_applying]
    exact hrun.output.symm

/-- An update for time 1 is stashed, and applied after one for time 0 that arrives later: the output of the
    key is its sum after 2, and then after 3 more. -/
theorem state_machine_in_order_example :
    ∃ turns : List (Turn (Unsigned 64) (ℕ × ℕ)), ValidTurns (MutableAntichain.new_bottom 0) turns ∧
      (run (fun _ val state => (state + val, false, [state + val])) 0 ⟨0, 0⟩ turns).1.applied =
        [(0, (7, 2)), (1, (7, 3))] ∧
      (run (fun _ val state => (state + val, false, [state + val])) 0 ⟨0, 0⟩ turns).2 = [(0, 2), (1, 5)] ∧
      (run (fun _ val state => (state + val, false, [state + val])) 0 ⟨0, 0⟩ turns).1.applied.Pairwise
        (fun early late => ¬ late.1 < early.1) := by
  have hvalid : ValidTurns (MutableAntichain.new_bottom 0)
      ([⟨MutableAntichain.new_bottom 0, [(1, [(7, 3)]), (0, [(7, 2)])]⟩, ⟨MutableAntichain.new, []⟩] :
        List (Turn (Unsigned 64) (ℕ × ℕ))) := by
    refine ⟨Advances.refl _, by decide +kernel, ?_, by decide +kernel, trivial⟩
    exact List.Forall₂.cons (fun time hmem => absurd hmem List.not_mem_nil) List.Forall₂.nil
  refine ⟨_, hvalid, by decide +kernel, by decide +kernel, ?_⟩
  exact (state_machine_in_order (fun _ val state => (state + val, false, [state + val])) 0 ⟨0, 0⟩ hvalid).1

end StateMachine

end Timely
