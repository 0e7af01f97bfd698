/-
  Timely/Safety.lean
  ==================
  **What a worker knows of a frontier is safe**
  (`timely/src/progress/subgraph.rs`, `timely/src/progress/broadcast.rs`,
  `timely/src/progress/reachability.rs`).

  Workers hold capabilities, and what they add to the pointstamps is justified by
  what they hold or have consumed.  A worker has seen some of what each worker has
  sent, in the order of its sending.  Whatever this is, where a capability or a
  message exists, what it could result in is covered by the worker's implications.
-/
import Timely.Discipline
import Timely.Lasting

set_option linter.unusedSectionVars false

namespace Timely

open Library

/-! ### Scopes that propagate -/

namespace Subgraph

variable {O S TOuter TInner : Type}
  [PartialOrder TOuter] [DecidableLE TOuter] [DecidableEq TOuter] [Ord TOuter]
  [LinearExtension TOuter]
  [PartialOrder TInner] [DecidableLE TInner] [DecidableEq TInner] [Ord TInner]
  [LinearExtension TInner] [Refines TOuter TInner] [PathSummary S TInner]
  {origins : Location × TInner → Prop} {topology : Builder S}
  {subgraph after : Subgraph O S TOuter TInner}

theorem SameCounts.confined {first second : Tracker S TInner} (h : SameCounts first second)
    (hconfined : first.Confined origins) : second.Confined origins := by
  intro location time hpos
  rw [h.implications_at] at hpos
  rw [h.builder]
  exact hconfined location time hpos

theorem SameCounts.keeps {first second : Tracker S TInner} (h : SameCounts first second)
    (hkeeps : first.Keeps origins) : second.Keeps origins := by
  intro location time
  rw [h.builder, h.implications_at]
  exact hkeeps location time

/-- Propagating lists only what arises from the pointstamps, and keeps what lasts. -/
theorem AtRest.confined (h : AtRest topology subgraph) (hadvances : topology.Advances TInner)
    (hpropagates : subgraph.Propagates after)
    (hconfined : subgraph.pointstamp_tracker.Confined origins)
    (hcounts : ∀ key, 0 < after.count key → topology.Arises origins key) :
    after.pointstamp_tracker.Confined origins ∧
      (subgraph.pointstamp_tracker.Keeps origins → after.pointstamp_tracker.Keeps origins) := by
  obtain ⟨committed, propagated, delivered, hstages⟩ := hpropagates.stages
  have hcommitted := committed_of_commit_pointstamps hstages.commit
  have hsame := hstages.same
  have hbuilder : committed.pointstamp_tracker.builder = topology :=
    hcommitted.same.builder.trans h.builder
  obtain ⟨hafter, hkept⟩ := hstages.propagate.confined (hbuilder.symm ▸ hadvances)
    (hcommitted.same.quiet h.quiet).toBalanced (SameCounts.confined hcommitted.same hconfined)
    (fun location time hpos => by
      rw [← hsame.pointstamps_at] at hpos
      rw [hbuilder]
      exact hcounts (location, time) hpos)
  exact ⟨hsame.confined hafter, fun hkeeps => hsame.keeps (hkept (hcommitted.same.keeps hkeeps))⟩

/-- An initialized scope lists what arises from its pointstamps. -/
theorem confined_of_get_internal_summary [PartialOrder S] [DecidableLE S] {graph : Builder S}
    {built start : Subgraph O S TOuter TInner} (hbuilt : SubgraphBuilder.Built graph built)
    {fuel : ℕ} (h : built.get_internal_summary fuel = some start) (hadvances : topology.Advances TInner)
    (hgraph : start.pointstamp_tracker.builder = topology)
    (hcounts : ∀ key, 0 < start.count key → topology.Arises origins key) :
    start.pointstamp_tracker.Confined origins := by
  obtain ⟨expressed, hexpressed, hpropagate⟩ := Option.bind_eq_some_iff.mp h
  obtain ⟨hrest, _, _, _, htracker⟩ := atRest_of_express hbuilt hexpressed
  have hstart := (hrest.propagates ⟨fuel, hpropagate⟩).1
  obtain rfl : topology = graph := hgraph.symm.trans hstart.builder
  refine (hrest.confined hadvances ⟨fuel, hpropagate⟩ (fun location time hpos => ?_) hcounts).1
  rw [htracker, hbuilt.allocated.fresh.implications, MutableAntichain.count_for_eq_tally] at hpos
  exact absurd hpos (lt_irrefl 0)

end Subgraph

namespace Cluster

variable {peers : ℕ} {O S TOuter TInner : Type}
  [PartialOrder TOuter] [DecidableLE TOuter] [DecidableEq TOuter] [Ord TOuter]
  [LinearExtension TOuter]
  [PartialOrder TInner] [DecidableLE TInner] [DecidableEq TInner] [Ord TInner]
  [LinearExtension TInner] [Refines TOuter TInner] [PathSummary S TInner]

/-! ### What holds in every run -/

/-- The pointstamps that workers were granted. -/
def granting (granted : Location × TInner →₀ ℤ) (key : Location × TInner) : Prop := 0 < granted key

open Classical in
/-- The changes of pointstamps that do not last. -/
noncomputable def passing (topology : Builder S) (granted change : Location × TInner →₀ ℤ) :
    Location × TInner →₀ ℤ :=
  change.filter fun key => ¬ topology.Lasts (granting granted) key

/-- The batches that a worker has sent. -/
noncomputable def batches (cluster : Cluster peers O S TOuter TInner) (worker : Fin peers) :
    List (Location × TInner →₀ ℤ) :=
  (cluster.broadcast.sent worker).map collect

/-- The local updates that a worker has not sent. -/
noncomputable def pending (cluster : Cluster peers O S TOuter TInner) (worker : Fin peers) :
    Location × TInner →₀ ℤ :=
  collect (cluster.local_updates worker)

/-- What a worker has done since it has last sent its updates. -/
noncomputable def Situation.recent (situation : Situation peers O S TOuter TInner) (worker : Fin peers) :
    Location × TInner →₀ ℤ :=
  collect (situation.recent_updates worker)

/-- What holds in every run: the accounts are kept; workers concern themselves with what arises from
    what they were granted; and what they have sent is justified. -/
structure Sound (topology : Builder S) (granted : Location × TInner →₀ ℤ)
    (situation : Situation peers O S TOuter TInner) : Prop where
  accounts : Accounts (fun _ => True) (fun _ => topology)
    (fun _ key => ∑ _sender : Fin peers, granted key) situation.cluster
  enclosed : ∀ worker, (situation.cluster.workers worker).Enclosed
  disciplined : Disciplined topology granted situation
  reports : ∀ worker key, ¬ topology.Arises (granting granted) key →
    situation.cluster.reported worker key = 0
  performs : ∀ worker key, ¬ topology.Arises (granting granted) key →
    situation.outstanding worker key = 0
  leaves : ∀ worker node key, ¬ topology.Arises (granting granted) key →
    situation.left worker node key = 0
  sends : ∀ worker, ∀ batch ∈ situation.cluster.batches worker, ∀ key,
    ¬ topology.Arises (granting granted) key → batch key = 0
  justified : ∀ worker, History (topology.Passes (granting granted)) capability
    (passing topology granted granted) ((situation.cluster.batches worker).map (passing topology granted))

variable {topology : Builder S} {granted : Location × TInner →₀ ℤ}
  {cluster after : Cluster peers O S TOuter TInner} {situation later : Situation peers O S TOuter TInner}

theorem sum_batches (worker : Fin peers) (key : Location × TInner) :
    (cluster.batches worker).sum key = cluster.sent_value worker key :=
  sum_map_collect _ key

theorem holding_batches (worker : Fin peers) :
    holding capability granted (cluster.batches worker) = cluster.held_before granted worker := by
  funext key
  rw [holding, held_before, sum_batches]

/-- What a worker has not sent is what it has reported, apart from what it has sent. -/
theorem Sound.reported_eq (h : Sound topology granted situation) (worker : Fin peers)
    (key : Location × TInner) : situation.cluster.reported worker key =
      (situation.cluster.batches worker).sum key + situation.cluster.pending worker key := by
  rw [sum_batches]
  exact h.accounts.reported worker key

theorem recent_eq (worker : Fin peers) (key : Location × TInner) :
    situation.recent worker key = situation.cluster.pending worker key + situation.outstanding worker key :=
  tally_recent_updates worker key

theorem Sound.pending_eq_zero (h : Sound topology granted situation) (worker : Fin peers)
    {key : Location × TInner} (hkey : ¬ topology.Arises (granting granted) key) :
    situation.cluster.pending worker key = 0 := by
  have hreported := h.reported_eq worker key
  rwa [h.reports worker key hkey,
    sum_apply_eq_zero fun batch hbatch => h.sends worker batch hbatch key hkey, zero_add, eq_comm] at hreported

theorem Sound.recent_eq_zero (h : Sound topology granted situation) (worker : Fin peers)
    {key : Location × TInner} (hkey : ¬ topology.Arises (granting granted) key) :
    situation.recent worker key = 0 := by
  rw [recent_eq, h.pending_eq_zero worker hkey, h.performs worker key hkey, add_zero]

/-- A change adds nothing where nothing arises, if it takes nothing away there. -/
theorem eq_zero_of_supported {held : Location × TInner → ℤ} {change : Location × TInner → ℤ}
    (hadvances : topology.Advances TInner) (hsupported : Supported topology.Precedes held change)
    (hheld : ∀ key, 0 < held key → topology.Arises (granting granted) key)
    (hnonneg : ∀ key, ¬ topology.Arises (granting granted) key → 0 ≤ change key)
    {key : Location × TInner} (hkey : ¬ topology.Arises (granting granted) key) : change key = 0 := by
  refine le_antisymm (not_lt.mp fun hpos => ?_) (hnonneg key hkey)
  rcases hsupported key hpos with ⟨lower, hlower, hneg⟩ | ⟨lower, hlower, hpositive⟩ | hpositive
  · refine absurd (hnonneg lower fun harises => ?_) (not_le_of_gt hneg)
    exact hkey (harises.could hadvances hlower.2)
  · exact hkey ((hheld lower hpositive).could hadvances hlower.2)
  · exact hkey (hheld key hpositive)

theorem arises_of_held_before
    (hsends : ∀ worker, ∀ batch ∈ cluster.batches worker, ∀ key,
      ¬ topology.Arises (granting granted) key → batch key = 0) {worker : Fin peers}
    {key : Location × TInner} (hheld : 0 < cluster.held_before granted worker key) :
    topology.Arises (granting granted) key := by
  by_contra hkey
  have hgranted : ¬ 0 < granted key := fun hpos => hkey (Builder.Arises.of_origin hpos)
  have hsum : (cluster.batches worker).sum key = 0 :=
    sum_apply_eq_zero fun batch hbatch => hsends worker batch hbatch key hkey
  rw [held_before, ← sum_batches, hsum, add_zero] at hheld
  split at hheld
  · exact hgranted hheld
  · exact absurd hheld (lt_irrefl 0)

/-- A change that is supported is justified, as are the batches before it. -/
theorem Sound.history_snoc (h : Sound topology granted situation) (hadvances : topology.Advances TInner)
    (worker : Fin peers) {change : Location × TInner →₀ ℤ}
    (hsupported : Supported topology.Precedes (situation.cluster.held_before granted worker) change)
    (hnothing : ∀ key, ¬ topology.Arises (granting granted) key → change key = 0) :
    History (topology.Passes (granting granted)) capability (passing topology granted granted)
      ((situation.cluster.batches worker).map (passing topology granted) ++
        [passing topology granted change]) := by
  classical
  have horder := hadvances.isStrictOrder (granting granted)
  refine (h.justified worker).snoc ?_
  have hholding : holding capability (passing topology granted granted)
      ((situation.cluster.batches worker).map (passing topology granted)) = fun key =>
        if ¬ topology.Lasts (granting granted) key then situation.cluster.held_before granted worker key
        else 0 := by
    funext key
    rw [← holding_batches]
    exact holding_filter (situation.cluster.batches worker) key
  rw [hholding]
  refine hsupported.filter ?_
  intro lower key hlower hchange hlasts
  have harises : topology.Arises (granting granted) lower := by
    rcases hchange with hneg | hheld
    · by_contra hkey
      exact absurd (hnothing lower hkey) hneg.ne
    · exact arises_of_held_before h.sends hheld
  exact ⟨⟨hlower, harises, hlasts⟩, fun hlasting => hlasts (hlasting.could hadvances hlower.2)⟩

/-- What the workers have done of what does not last. -/
noncomputable def history (topology : Builder S) (granted : Location × TInner →₀ ℤ)
    (situation : Situation peers O S TOuter TInner) (worker : Fin peers) :
    List (Location × TInner →₀ ℤ) :=
  (situation.cluster.batches worker).map (passing topology granted) ++
    [passing topology granted (situation.recent worker)]

open Classical in
theorem Sound.sum_history (h : Sound topology granted situation) (worker : Fin peers)
    (key : Location × TInner) :
    (history topology granted situation worker).sum key =
      if ¬ topology.Lasts (granting granted) key then situation.done worker key else 0 := by
  have hsum : ((situation.cluster.batches worker ++ [situation.recent worker]).map
      (passing topology granted)).sum key = _ := sum_map_filter _ key
  have hdone : situation.done worker key =
      (situation.cluster.batches worker).sum key + situation.recent worker key := by
    rw [Situation.done, h.reported_eq, recent_eq, add_assoc]
  rw [List.map_append, List.map_cons, List.map_nil] at hsum
  rw [history, hsum, List.sum_append, List.sum_singleton, Finsupp.add_apply, hdone]

/-- What the workers have done is justified. -/
theorem Sound.histories (h : Sound topology granted situation) (hadvances : topology.Advances TInner) :
    Histories (topology.Passes (granting granted)) capability
      (fun _ => passing topology granted granted) (history topology granted situation) := by
  classical
  refine ⟨fun worker => ?_, fun worker key => ?_, fun key => ?_⟩
  · refine h.history_snoc hadvances worker ?_ fun key => h.recent_eq_zero worker
    have hrecent : ⇑(situation.recent worker) = fun key =>
        (situation.cluster.workers worker).local_pointstamp.value key + situation.outstanding worker key :=
      funext (tally_recent_updates worker)
    rw [hrecent]
    exact h.disciplined.performed worker
  · have hheld := h.disciplined.holds worker key
    rw [Situation.held] at hheld
    rw [holding, h.sum_history, passing, Finsupp.filter_apply]
    by_cases hlasts : ¬ topology.Lasts (granting granted) key
    · rw [if_pos hlasts, if_pos hlasts]
      exact hheld
    · rw [if_neg hlasts, if_neg hlasts, add_zero, ite_self]
  · have hexist := h.disciplined.exist key
    rw [total]
    simp only [h.sum_history, passing, Finsupp.filter_apply]
    by_cases hlasts : ¬ topology.Lasts (granting granted) key
    · simp only [if_pos hlasts]
      exact hexist
    · simp only [if_neg hlasts, add_zero, Finset.sum_const_zero, le_refl]

/-! ### Steps -/

/-- What sending does: to the local updates, and to the record. -/
theorem send_progress_cases {worker : Fin peers} {pushers : Fin peers → Option (ProgressMsg TInner)}
    (hsend : cluster.send_progress worker pushers = some after) :
    ∃ left, after.workers = Function.update cluster.workers worker
        { cluster.workers worker with local_pointstamp := left } ∧
      after.broadcast.received = cluster.broadcast.received ∧ after.reported = cluster.reported ∧
      (∀ other, other ≠ worker → after.broadcast.sent other = cluster.broadcast.sent other) ∧
      (after.broadcast.sent worker = cluster.broadcast.sent worker ∨
        after.broadcast.sent worker = cluster.broadcast.sent worker
          ++ [(cluster.workers worker).local_pointstamp.compact.updates]) := by
  obtain ⟨must_send, -, hafter⟩ := Option.map_eq_some_iff.mp hsend
  cases must_send with
  | false =>
    rw [if_neg (by decide)] at hafter
    subst hafter
    exact ⟨_, rfl, rfl, rfl, fun _ _ => rfl, Or.inl rfl⟩
  | true =>
    rw [if_pos rfl] at hafter
    subst hafter
    refine ⟨_, rfl, rfl, rfl, fun other hother => Function.update_of_ne hother _ _, ?_⟩
    have hsent : (cluster.broadcast.send worker pushers
        (cluster.workers worker).local_pointstamp).1.sent worker = cluster.broadcast.sent worker
          ++ if (cluster.workers worker).local_pointstamp.compact.updates = [] then []
            else [(cluster.workers worker).local_pointstamp.compact.updates] :=
      Function.update_self _ _ _
    rw [hsent]
    by_cases hempty : (cluster.workers worker).local_pointstamp.compact.updates = []
    · rw [if_pos hempty, List.append_nil]
      exact Or.inl rfl
    · rw [if_neg hempty]
      exact Or.inr rfl

section Steps

variable [Operate O TInner] {event : Event peers TOuter TInner}

/-- In a step a worker takes a step of its own, or at most its buffers of updates change. -/
theorem Step.worker_cases (hstep : Step cluster event after) (worker : Fin peers) :
    (∃ own : ScopeEvent TOuter TInner, own.Scheduled ∧
      Subgraph.ScopeStep (cluster.workers worker) own (after.workers worker)) ∨
    ∃ left final, after.workers worker =
      { cluster.workers worker with local_pointstamp := left, final_pointstamp := final } := by
  cases hstep with
  | @scope scheduled own subgraph hscheduled hscope =>
    by_cases hworker : worker = scheduled
    · subst hworker
      refine Or.inl ⟨own, hscheduled, ?_⟩
      rwa [show (cluster.set_worker worker subgraph).workers worker = subgraph from
        Function.update_self _ _ _]
    · exact Or.inr ⟨_, _, Function.update_of_ne hworker _ _⟩
  | @send _ sender pushers hsend =>
    obtain ⟨left, hworkers, -⟩ := send_progress_cases hsend
    by_cases hworker : worker = sender
    · subst hworker
      exact Or.inr ⟨left, _, by rw [hworkers, Function.update_self]⟩
    · exact Or.inr ⟨_, _, by rw [hworkers, Function.update_of_ne hworker]⟩
  | @recv _ receiver senders hrecv =>
    obtain ⟨⟨broadcast, final⟩, -, rfl⟩ := Option.map_eq_some_iff.mp hrecv
    by_cases hworker : worker = receiver
    · subst hworker
      exact Or.inr ⟨_, final, Function.update_self _ _ _⟩
    · exact Or.inr ⟨_, _, Function.update_of_ne hworker _ _⟩

/-- What a worker has received stays received. -/
theorem Step.received_prefix (hstep : Step cluster event after) (sender worker : Fin peers) :
    cluster.broadcast.received sender worker <+: after.broadcast.received sender worker := by
  cases hstep with
  | scope _ _ => exact List.prefix_refl _
  | send hsend =>
    obtain ⟨_, -, hreceived, -⟩ := send_progress_cases hsend
    rw [hreceived]
  | @recv _ receiver senders hrecv =>
    obtain ⟨⟨broadcast, final⟩, hpull, rfl⟩ := Option.map_eq_some_iff.mp hrecv
    obtain ⟨messages, hpulled, -⟩ := Broadcast.recv_cases hpull
    by_cases hworker : worker = receiver
    · rw [hworker]
      exact hpulled.prefixed sender
    · rw [hpulled.others sender worker hworker]

theorem enclosed_step (hrest : ∀ worker, (cluster.workers worker).AtRest topology)
    (hlocal : ∀ worker, (cluster.workers worker).AllLocal)
    (henclosed : ∀ worker, (cluster.workers worker).Enclosed) (hstep : Step cluster event after) :
    ∀ worker, (after.workers worker).Enclosed := by
  intro worker
  rcases hstep.worker_cases worker with ⟨own, hscheduled, hscope⟩ | ⟨left, final, hworker⟩
  · exact ((henclosed worker).step (hrest worker) (hlocal worker) hscheduled hscope).1
  · rw [hworker]
    exact ⟨(henclosed worker).frontiers, (henclosed worker).consumeds, (henclosed worker).produceds,
      (henclosed worker).buffered⟩

/-- Accounts are kept also of child zero, in scopes with nothing around them. -/
theorem Accounts.step_enclosed {initial : Fin peers → Location × TInner → ℤ}
    (h : Accounts (fun _ => True) (fun _ => topology) initial cluster)
    (henclosed : ∀ worker, (cluster.workers worker).Enclosed) (hstep : Step cluster event after) :
    Accounts (fun _ => True) (fun _ => topology) initial after := by
  cases hstep with
  | @scope worker event subgraph hscheduled hscope =>
    obtain ⟨hrest, -⟩ := (h.atRest worker).step (h.allLocal worker) hscheduled hscope
    obtain ⟨-, hknown⟩ := (henclosed worker).step (h.atRest worker) (h.allLocal worker)
      hscheduled hscope
    exact h.set_worker hrest (hscope.allLocal (h.allLocal worker)) fun key _ => hknown key
  | send hsend => exact h.send hsend
  | recv hrecv => exact h.recv hrecv

/-- What a worker has sent stays, or is followed by all its local updates. -/
theorem batches_step (hstep : Step cluster event after) (worker : Fin peers) :
    after.batches worker = cluster.batches worker ∨
      after.batches worker = cluster.batches worker ++ [cluster.pending worker] := by
  cases hstep with
  | scope _ _ => exact Or.inl rfl
  | @send _ sender pushers hsend =>
    obtain ⟨left, -, -, -, hothers, hsent⟩ := send_progress_cases hsend
    by_cases hsame : worker = sender
    · subst hsame
      rcases hsent with hkept | hsnoc
      · rw [batches, batches, hkept]
        exact Or.inl rfl
      · have hbatch : collect (cluster.workers worker).local_pointstamp.compact.updates
            = cluster.pending worker :=
          collect_congr fun key => ChangeBatch.tally_compact _ key
        rw [batches, batches, hsnoc, List.map_append, List.map_cons, List.map_nil, hbatch]
        exact Or.inr rfl
    · rw [batches, batches, hothers worker hsame]
      exact Or.inl rfl
  | @recv _ receiver senders hrecv =>
    obtain ⟨⟨broadcast, final⟩, hreceived, rfl⟩ := Option.map_eq_some_iff.mp hrecv
    obtain ⟨messages, hpulled, -⟩ := Broadcast.recv_cases hreceived
    exact Or.inl (congrArg (List.map collect) (congrFun hpulled.sent worker))

/-- At most one worker reports something new. -/
theorem reported_step (hstep : Step cluster event after) :
    ∃ worker, ∀ other, other ≠ worker → after.reported other = cluster.reported other := by
  cases hstep with
  | @scope worker event subgraph _ _ =>
    exact ⟨worker, fun other hother => Function.update_of_ne hother _ _⟩
  | @send _ worker pushers hsend =>
    obtain ⟨left, -, -, hreported, -⟩ := send_progress_cases hsend
    exact ⟨worker, fun other _ => congrFun hreported other⟩
  | @recv _ worker senders hrecv =>
    obtain ⟨received, -, rfl⟩ := Option.map_eq_some_iff.mp hrecv
    exact ⟨worker, fun _ _ => rfl⟩

theorem Sound.sends_step (h : Sound topology granted situation) (hstep : Step situation.cluster event after)
    (worker : Fin peers) : ∀ batch ∈ after.batches worker, ∀ key,
      ¬ topology.Arises (granting granted) key → batch key = 0 := by
  intro batch hbatch key hkey
  have hold : ∀ batch ∈ situation.cluster.batches worker, batch key = 0 :=
    fun batch hbatch => h.sends worker batch hbatch key hkey
  rcases batches_step hstep worker with hsame | hsnoc
  · rw [hsame] at hbatch
    exact hold batch hbatch
  · rw [hsnoc] at hbatch
    rcases List.mem_append.mp hbatch with hmem | hlast
    · exact hold batch hmem
    · rw [List.mem_singleton.mp hlast]
      exact h.pending_eq_zero worker hkey

/-- Where nothing arises, what one worker alone has done is not less than nothing. -/
theorem Disciplined.done_nonneg (hdisciplined : Disciplined topology granted situation)
    {worker : Fin peers} {key : Location × TInner} (hkey : ¬ topology.Arises (granting granted) key)
    (hothers : ∀ other, other ≠ worker → situation.done other key = 0) : 0 ≤ situation.done worker key := by
  have hexist := hdisciplined.exist key
  have hgranted : granted key ≤ 0 := not_lt.mp fun hpos => hkey (Builder.Arises.of_origin hpos)
  have hsum : ∑ other, situation.done other key = situation.done worker key :=
    Finset.sum_eq_single worker (fun other _ hother => hothers other hother)
      fun hnot => absurd (Finset.mem_univ worker) hnot
  rw [Situation.existing, Finset.sum_add_distrib, hsum] at hexist
  have hnothing : ∑ _other : Fin peers, granted key ≤ 0 :=
    Finset.sum_nonpos fun _ _ => hgranted
  linarith

/-- Nothing is done where nothing arises: the worker that does something takes nothing away there,
    for there is nothing, and adds nothing without support. -/
theorem Disciplined.done_eq_zero (hdisciplined : Disciplined topology granted situation)
    (hadvances : topology.Advances TInner)
    (haccounts : Accounts (fun _ => True) (fun _ => topology)
      (fun _ key => ∑ _sender : Fin peers, granted key) situation.cluster)
    (hsends : ∀ worker, ∀ batch ∈ situation.cluster.batches worker, ∀ key,
      ¬ topology.Arises (granting granted) key → batch key = 0) {worker : Fin peers}
    (hothers : ∀ other, other ≠ worker → ∀ key, ¬ topology.Arises (granting granted) key →
      situation.done other key = 0) {key : Location × TInner}
    (hkey : ¬ topology.Arises (granting granted) key) : situation.done worker key = 0 := by
  have hrecent : ∀ key, ¬ topology.Arises (granting granted) key →
      (situation.cluster.workers worker).local_pointstamp.value key + situation.outstanding worker key =
        situation.done worker key := by
    intro key hkey
    rw [Situation.done, haccounts.reported, ← sum_batches,
      sum_apply_eq_zero fun batch hbatch => hsends worker batch hbatch key hkey, zero_add]
  rw [← hrecent key hkey]
  refine eq_zero_of_supported hadvances (hdisciplined.performed worker)
    (fun key => arises_of_held_before hsends) (fun key hkey => ?_) hkey
  rw [hrecent key hkey]
  exact hdisciplined.done_nonneg hkey fun other hother => hothers other hother key hkey

theorem Sound.done_eq_zero (h : Sound topology granted situation) (worker : Fin peers)
    {key : Location × TInner} (hkey : ¬ topology.Arises (granting granted) key) :
    situation.done worker key = 0 := by
  rw [Situation.done, h.reports worker key hkey, h.performs worker key hkey, add_zero]

/-- A node does something. -/
theorem Sound.perform (h : Sound topology granted situation) (hadvances : topology.Advances TInner)
    {worker : Fin peers} {node : ℕ} {changes : ProgressVec TInner}
    (hdisciplined : Disciplined topology granted (situation.perform worker node changes)) :
    Sound topology granted (situation.perform worker node changes) := by
  have hothers : ∀ other, other ≠ worker → ∀ key, ¬ topology.Arises (granting granted) key →
      (situation.perform worker node changes).done other key = 0 := by
    intro other hother key hkey
    rw [Situation.done, Situation.outstanding_perform_of_ne _ _ _ hother]
    exact h.done_eq_zero other hkey
  -- at the worker only the changes are new
  have hchanges : ∀ key, ¬ topology.Arises (granting granted) key → tally changes key = 0 := by
    intro key hkey
    have hdone := hdisciplined.done_eq_zero hadvances h.accounts h.sends hothers hkey
    rw [Situation.done, Situation.outstanding_perform, h.performs worker key hkey, zero_add] at hdone
    have hreports := h.reports worker key hkey
    exact (add_eq_right.mpr hreports).symm.trans hdone
  refine ⟨h.accounts, h.enclosed, hdisciplined, h.reports, fun other key hkey => ?_,
    fun other second key hkey => ?_, h.sends, h.justified⟩
  · by_cases hother : other = worker
    · rw [hother, Situation.outstanding_perform, h.performs worker key hkey, hchanges key hkey, add_zero]
    · rw [Situation.outstanding_perform_of_ne _ _ _ hother]
      exact h.performs other key hkey
  · by_cases hsame : other = worker ∧ second = node
    · rw [hsame.1, hsame.2, Situation.left_perform, h.leaves worker node key hkey, hchanges key hkey, add_zero]
    · rw [Situation.left_perform_of_ne _ _ _ (not_and_or.mp hsame)]
      exact h.leaves other second key hkey

/-- A step is taken, in which a node may report. -/
theorem Sound.step (h : Sound topology granted situation) (hadvances : topology.Advances TInner)
    (hdisciplined : Disciplined topology granted (situation.follow event after))
    (hstep : Step situation.cluster event after) :
    Sound topology granted (situation.follow event after) := by
  have haccounts := h.accounts.step_enclosed h.enclosed hstep
  have hsends := h.sends_step hstep
  have hleaves : ∀ worker node key, ¬ topology.Arises (granting granted) key →
      (situation.follow event after).left worker node key = 0 := by
    intro worker node key hkey
    by_cases hreporter : event.reporter = some (worker, node)
    · exact situation.left_follow_reporter after hreporter key
    · exact (situation.left_follow_of_ne after hreporter key).trans (h.leaves worker node key hkey)
  have hperforms : ∀ worker key, ¬ topology.Arises (granting granted) key →
      (situation.follow event after).outstanding worker key = 0 := by
    intro worker key hkey
    rcases situation.outstanding_follow event after worker key with hkept | ⟨node, hless⟩
    · exact hkept.trans (h.performs worker key hkey)
    · rw [hless, h.performs worker key hkey, h.leaves worker node key hkey, sub_zero]
  have hdone : ∀ worker key, ¬ topology.Arises (granting granted) key →
      (situation.follow event after).done worker key = after.reported worker key := by
    intro worker key hkey
    rw [Situation.done, hperforms worker key hkey, add_zero]
    rfl
  obtain ⟨reporting, hothers⟩ := reported_step hstep
  have hzero : ∀ other, other ≠ reporting → ∀ key, ¬ topology.Arises (granting granted) key →
      (situation.follow event after).done other key = 0 := by
    intro other hother key hkey
    rw [hdone other key hkey, hothers other hother]
    exact h.reports other key hkey
  refine ⟨haccounts, enclosed_step h.accounts.atRest h.accounts.allLocal h.enclosed hstep, hdisciplined,
    fun worker key hkey => ?_, hperforms, hleaves, hsends, fun worker => ?_⟩
  · rw [Situation.follow, ← hdone worker key hkey]
    by_cases hworker : worker = reporting
    · rw [hworker]
      exact hdisciplined.done_eq_zero hadvances haccounts hsends hzero hkey
    · exact hzero worker hworker key hkey
  · have hbatches : (situation.follow event after).cluster.batches worker = after.batches worker := rfl
    rw [hbatches]
    rcases batches_step hstep worker with hsame | hsnoc
    · rw [hsame]
      exact h.justified worker
    · rw [hsnoc, List.map_append, List.map_cons, List.map_nil]
      exact h.history_snoc hadvances worker (h.disciplined.supported worker) fun key => h.pending_eq_zero worker

theorem Sound.moves (h : Sound topology granted situation) (hadvances : topology.Advances TInner)
    {move : Move peers TOuter TInner} (hmoves : situation.Moves move later)
    (hdisciplined : Disciplined topology granted later) : Sound topology granted later := by
  cases hmoves with
  | perform worker node changes => exact h.perform hadvances hdisciplined
  | event hstep => exact h.step hadvances hdisciplined hstep

theorem Sound.run (h : Sound topology granted situation) (hadvances : topology.Advances TInner)
    {moves : List (Move peers TOuter TInner)}
    (hrun : Run (DisciplinedStep topology granted) situation moves later) :
    Sound topology granted later := by
  refine hrun.invariant (P := fun _ later => Sound topology granted later) h ?_
  rintro _ before move later hbefore ⟨hmoves, hdisciplined⟩
  exact hbefore.moves hadvances hmoves hdisciplined

/-! ### What a worker sees -/

/-- What a worker counts: what all workers were granted, and what it has seen of each.  Its frontiers list
    what arises, and what lasts. -/
structure Viewed (topology : Builder S) (granted : Location × TInner →₀ ℤ)
    (cluster : Cluster peers O S TOuter TInner) (worker : Fin peers)
    (seen : Fin peers → List (ProgressVec TInner)) : Prop where
  received : ∀ sender, seen sender <+:
    (cluster.broadcast.received sender worker).map ProgressMsg.changes
  count : ∀ key, (cluster.workers worker).count key =
    ∑ sender, (granted key + tally (seen sender).flatten key)
  confined : (cluster.workers worker).pointstamp_tracker.Confined (granting granted)
  keeps : (cluster.workers worker).pointstamp_tracker.Keeps (granting granted)

theorem received_value_eq (sender worker : Fin peers) (key : Location × TInner) :
    cluster.received_value sender worker key =
      tally ((cluster.broadcast.received sender worker).map ProgressMsg.changes).flatten key := by
  rw [received_value, List.flatMap_def]

/-- A worker that has propagated all that it has received counts it. -/
theorem Sound.count_eq (h : Sound topology granted situation) {worker : Fin peers}
    (hknown : ∀ key, (situation.cluster.workers worker).count key =
      (situation.cluster.workers worker).known key)
    (key : Location × TInner) : (situation.cluster.workers worker).count key =
      ∑ sender, (granted key + tally
        ((situation.cluster.broadcast.received sender worker).map ProgressMsg.changes).flatten key) := by
  rw [hknown, h.accounts.known worker key trivial, Finset.sum_add_distrib]
  simp only [received_value_eq]

/-- What a worker has seen are first batches of every worker. -/
theorem Sound.exists_batches (h : Sound topology granted situation) {worker : Fin peers}
    {seen : Fin peers → List (ProgressVec TInner)}
    (hreceived : ∀ sender, seen sender <+:
      (situation.cluster.broadcast.received sender worker).map ProgressMsg.changes) (sender : Fin peers) :
    ∃ rest, situation.cluster.batches sender = (seen sender).map collect ++ rest := by
  obtain ⟨later, hlater⟩ := hreceived sender
  have hdelivered := congrArg (List.map ProgressMsg.changes)
    (h.accounts.exact.delivered sender worker)
  rw [List.map_append, Broadcast.changes_numbered, ← hlater] at hdelivered
  rw [batches, ← hdelivered, List.map_append, List.map_append, List.append_assoc]
  exact ⟨_, rfl⟩

/-- What is counted in a view arises. -/
theorem Sound.arises_of_count (h : Sound topology granted situation) {worker : Fin peers}
    {seen : Fin peers → List (ProgressVec TInner)}
    (hreceived : ∀ sender, seen sender <+:
      (situation.cluster.broadcast.received sender worker).map ProgressMsg.changes) {key : Location × TInner}
    (hpos : 0 < ∑ sender, (granted key + tally (seen sender).flatten key)) :
    topology.Arises (granting granted) key := by
  by_contra hkey
  refine absurd hpos (not_lt_of_ge (Finset.sum_nonpos fun sender _ => ?_))
  obtain ⟨rest, hrest⟩ := h.exists_batches hreceived sender
  have hnothing : ((seen sender).map collect).sum key = 0 := by
    refine sum_apply_eq_zero fun batch hbatch => h.sends sender batch ?_ key hkey
    rw [hrest]
    exact List.mem_append_left rest hbatch
  rw [sum_map_collect] at hnothing
  rw [hnothing, add_zero]
  exact not_lt.mp fun hgranted => hkey (Builder.Arises.of_origin hgranted)

/-- With every step a worker sees no less. -/
theorem Viewed.step (hsound : Sound topology granted situation) (hadvances : topology.Advances TInner)
    {worker : Fin peers} {seen : Fin peers → List (ProgressVec TInner)}
    (h : Viewed topology granted situation.cluster worker seen) (hafter : Sound topology granted later)
    (hstep : Step situation.cluster event later.cluster) :
    ∃ more, (∀ sender, seen sender <+: more sender) ∧ Viewed topology granted later.cluster worker more := by
  have hreceived : ∀ sender, seen sender <+:
      (later.cluster.broadcast.received sender worker).map ProgressMsg.changes := fun sender =>
    (h.received sender).trans ((hstep.received_prefix sender worker).map _)
  have hrefl : ∀ sender, seen sender <+: seen sender := fun sender => List.prefix_refl _
  rcases hstep.worker_cases worker with ⟨own, hscheduled, hscope⟩ | ⟨left, final, hworker⟩
  · rcases hscope.unpropagated (hsound.accounts.allLocal worker) hscheduled with
      ⟨-, hpropagates⟩ | hkept
    · -- all that has been received is counted
      have hrest := hsound.accounts.atRest worker
      obtain ⟨-, hfinal, -⟩ := hrest.propagates hpropagates
      have hcount := hafter.count_eq fun key => by
        rw [Subgraph.known, hfinal, ChangeBatch.value_new, add_zero]
      obtain ⟨hconfined, hkeeps⟩ := hrest.confined hadvances hpropagates h.confined fun key hpos => by
        rw [hcount] at hpos
        exact hafter.arises_of_count (fun sender => List.prefix_refl _) hpos
      exact ⟨_, hreceived, fun sender => List.prefix_refl _, hcount, hconfined, hkeeps h.keeps⟩
    · exact ⟨seen, hrefl, hreceived, fun key => (hkept.same.count key).trans (h.count key),
        Subgraph.SameCounts.confined hkept.same h.confined,
        Subgraph.SameCounts.keeps hkept.same h.keeps⟩
  · refine ⟨seen, hrefl, hreceived, ?_, ?_, ?_⟩
    · rw [hworker]
      exact h.count
    · rw [hworker]
      exact h.confined
    · rw [hworker]
      exact h.keeps

/-- What a worker sees changes in steps only. -/
theorem Viewed.moves (hsound : Sound topology granted situation) (hadvances : topology.Advances TInner)
    {worker : Fin peers} {seen : Fin peers → List (ProgressVec TInner)}
    (h : Viewed topology granted situation.cluster worker seen) (hafter : Sound topology granted later)
    {move : Move peers TOuter TInner} (hmoves : situation.Moves move later) :
    ∃ more, (∀ sender, seen sender <+: more sender) ∧ Viewed topology granted later.cluster worker more := by
  cases hmoves with
  | perform performer node changes => exact ⟨seen, fun sender => List.prefix_refl _, h⟩
  | event hstep => exact h.step hsound hadvances hafter hstep

theorem Viewed.run (hsound : Sound topology granted situation) (hadvances : topology.Advances TInner)
    {worker : Fin peers} {seen : Fin peers → List (ProgressVec TInner)}
    (h : Viewed topology granted situation.cluster worker seen) {moves : List (Move peers TOuter TInner)}
    (hrun : Run (DisciplinedStep topology granted) situation moves later) :
    ∃ more, (∀ sender, seen sender <+: more sender) ∧ Viewed topology granted later.cluster worker more := by
  have hboth : Sound topology granted later ∧ ∃ more, (∀ sender, seen sender <+: more sender) ∧
      Viewed topology granted later.cluster worker more := by
    refine hrun.invariant (P := fun _ later => Sound topology granted later ∧
      ∃ more, (∀ sender, seen sender <+: more sender) ∧ Viewed topology granted later.cluster worker more)
      ⟨hsound, seen, fun _ => List.prefix_refl _, h⟩ ?_
    rintro _ before move later ⟨hbefore, middle, hmiddle, hviewed⟩ ⟨hmoves, hdisciplined⟩
    have hafter := hbefore.moves hadvances hmoves hdisciplined
    obtain ⟨more, hmore, hview⟩ := hviewed.moves hbefore hadvances hafter hmoves
    exact ⟨hafter, more, fun sender => (hmiddle sender).trans (hmore sender), hview⟩
  exact hboth.2

open Classical in
/-- Of what does not last, a worker counts the sum of the changes that it has seen. -/
theorem Viewed.total_eq {worker : Fin peers} {seen : Fin peers → List (ProgressVec TInner)}
    (h : Viewed topology granted cluster worker seen) (key : Location × TInner) :
    total (fun _ : Fin peers => passing topology granted granted)
        (fun sender => ((seen sender).map collect).map (passing topology granted)) key =
      if ¬ topology.Lasts (granting granted) key then (cluster.workers worker).count key else 0 := by
  have hcount : total (fun _ : Fin peers => granted) (fun sender => (seen sender).map collect) key =
      (cluster.workers worker).count key := by
    rw [total, h.count]
    refine Finset.sum_congr rfl fun sender _ => ?_
    rw [sum_map_collect]
  rw [← hcount]
  exact total_filter _ _ key

/-- What a worker has seen begins the history of every worker. -/
theorem Viewed.split (hsound : Sound topology granted situation) {worker : Fin peers}
    {seen : Fin peers → List (ProgressVec TInner)}
    (h : Viewed topology granted situation.cluster worker seen) :
    ∃ unseen : Fin peers → List (Location × TInner →₀ ℤ), ∀ sender,
      history topology granted situation sender =
        ((seen sender).map collect).map (passing topology granted) ++ unseen sender := by
  choose rest hrest using hsound.exists_batches h.received
  refine ⟨fun sender => (rest sender).map (passing topology granted) ++
    [passing topology granted (situation.recent sender)], fun sender => ?_⟩
  rw [history, hrest, List.map_append, List.append_assoc]

end Steps

/-! ### Runs from the start -/

section Runs

variable [PartialOrder S] [DecidableLE S] [Operate O TInner]
  {builders : Fin peers → SubgraphBuilder O S TOuter TInner}
  {starts : Fin peers → Subgraph O S TOuter TInner}

theorem Started.sound (h : Started topology granted builders starts) :
    Sound topology granted (begin_with starts) where
  accounts := h.accounts
  enclosed := h.enclosed
  disciplined := h.disciplined
  reports _ _ _ := rfl
  performs _ _ _ := rfl
  leaves _ _ _ _ := rfl
  sends _ _ hbatch := absurd hbatch List.not_mem_nil
  justified _ := history_nil

/-- Each worker counts all that arises, from the start. -/
theorem Started.rooted (h : Started topology granted builders starts)
    (hadvances : topology.Advances TInner) (worker : Fin peers) :
    (starts worker).pointstamp_tracker.Rooted (granting granted) := by
  have hrest := h.accounts.atRest worker
  have hpeers : (0 : ℤ) < peers := Int.natCast_pos.mpr (Fin.pos worker)
  refine ⟨hrest.quiet, ?_, fun location time hgranted => ?_⟩
  · obtain ⟨built, iteration, eager, fuel, summary_fuel, hbuild, hlocal, hinit⟩ :=
      h.initialized.builds worker
    obtain ⟨assembled, hbuilt⟩ := SubgraphBuilder.built_of_build hbuild
    refine Subgraph.confined_of_get_internal_summary hbuilt hinit hadvances (h.graph worker) ?_
    intro key hpos
    rw [h.counts] at hpos
    exact Builder.Arises.of_origin ((mul_pos_iff_of_pos_left hpeers).mp hpos)
  · have hcount := h.counts worker (location, time)
    have hpos : 0 < (starts worker).count (location, time) := by
      rw [hcount]
      exact mul_pos hpeers hgranted
    exact hpos

/-- At the start nothing has been sent, and nothing has been seen. -/
theorem Started.viewed (h : Started topology granted builders starts)
    (hadvances : topology.Advances TInner) (worker : Fin peers) :
    Viewed topology granted (start starts) worker fun _ => [] := by
  have hrooted := h.rooted hadvances worker
  refine ⟨fun sender => List.nil_prefix, fun key => ?_, hrooted.confined, ?_⟩
  · have hcount : ((start starts).workers worker).count key = (starts worker).count key := rfl
    rw [hcount, h.sum_granted]
    refine Finset.sum_congr rfl fun sender _ => ?_
    rw [List.flatten_nil, tally_nil, add_zero]
  · refine hrooted.keeps ?_
    rw [h.graph]
    exact hadvances

theorem Started.founded (h : Started topology granted builders starts)
    (hadvances : topology.Advances TInner) (worker : Fin peers) :
    Tracker.Founded (granting granted) topology := by
  have hfounded := (h.rooted hadvances worker).founded
  rw [h.graph] at hfounded
  exact hfounded hadvances

/-- The frontier of what may still happen at a location, as a worker knows it. -/
def frontier_of (cluster : Cluster peers O S TOuter TInner) (worker : Fin peers)
    (location : Location) : List TInner :=
  ((cluster.workers worker).pointstamp_tracker.implications_at location).frontier

/-- A situation in a run from the start, and what one worker has seen there. -/
structure Reached (topology : Builder S) (granted : Location × TInner →₀ ℤ)
    (situation : Situation peers O S TOuter TInner) (worker : Fin peers)
    (seen : Fin peers → List (ProgressVec TInner)) : Prop where
  advances : topology.Advances TInner
  founded : Tracker.Founded (granting granted) topology
  sound : Sound topology granted situation
  viewed : Viewed topology granted situation.cluster worker seen

theorem Started.reached (h : Started topology granted builders starts)
    (hadvances : topology.Advances TInner) {moves : List (Move peers TOuter TInner)}
    (hrun : Run (DisciplinedStep topology granted) (begin_with starts) moves situation) (worker : Fin peers) :
    ∃ seen, Reached topology granted situation worker seen := by
  obtain ⟨seen, -, hviewed⟩ := (h.viewed hadvances worker).run h.sound hadvances hrun
  exact ⟨seen, hadvances, h.founded hadvances worker, h.sound.run hadvances hrun, hviewed⟩

theorem Reached.builder {worker : Fin peers} {seen : Fin peers → List (ProgressVec TInner)}
    (h : Reached topology granted situation worker seen) :
    (situation.cluster.workers worker).pointstamp_tracker.builder = topology :=
  (h.sound.accounts.atRest worker).builder

/-- What lasts is covered. -/
theorem Reached.covers_lasting {worker : Fin peers} {seen : Fin peers → List (ProgressVec TInner)}
    (h : Reached topology granted situation worker seen) {target : Location × TInner}
    (hlasts : topology.Lasts (granting granted) target) :
    Covers (situation.cluster.frontier_of worker) target.1 target.2 := by
  have hbuilder := h.builder
  have hadvances := h.advances
  have hfounded := h.founded
  rw [← hbuilder] at hadvances hfounded hlasts
  exact (h.sound.accounts.atRest worker).quiet.covers_lasting hadvances hfounded h.viewed.keeps hlasts

/-- What a counted pointstamp could result in is covered. -/
theorem Reached.covers_counted {worker : Fin peers} {seen : Fin peers → List (ProgressVec TInner)}
    (h : Reached topology granted situation worker seen) {origin target : Location × TInner}
    (hcount : 0 < (situation.cluster.workers worker).count origin)
    (hcould : topology.CouldResultIn origin target) :
    Covers (situation.cluster.frontier_of worker) target.1 target.2 := by
  have hbuilder := h.builder
  have hadvances := h.advances
  rw [← hbuilder] at hadvances hcould
  exact (h.sound.accounts.atRest worker).quiet.covers hadvances hcount hcould

/-- What is counted at or before the origin covers what the origin could result in. -/
theorem Reached.covers_below {worker : Fin peers} {seen : Fin peers → List (ProgressVec TInner)}
    (h : Reached topology granted situation worker seen) {seed origin target : Location × TInner}
    (hseed : seed = origin ∨ topology.Passes (granting granted) seed origin)
    (hcount : 0 < total (fun _ : Fin peers => passing topology granted granted)
      (fun sender => ((seen sender).map collect).map (passing topology granted)) seed)
    (hcould : topology.CouldResultIn origin target) :
    Covers (situation.cluster.frontier_of worker) target.1 target.2 := by
  classical
  rw [h.viewed.total_eq] at hcount
  have hpasses : ¬ topology.Lasts (granting granted) seed := by
    intro hlasting
    rw [if_neg (not_not_intro hlasting)] at hcount
    exact lt_irrefl 0 hcount
  rw [if_pos hpasses] at hcount
  rcases hseed with rfl | hpasses
  · exact h.covers_counted hcount hcould
  · exact h.covers_counted hcount (hpasses.1.2.trans h.advances hcould)

/-- Frontiers never retreat: what a worker lists later it has covered before. -/
theorem frontiers_advance (hadvances : topology.Advances TInner)
    (hstarted : Started topology granted builders starts) {moves more : List (Move peers TOuter TInner)}
    (hrun : Run (DisciplinedStep topology granted) (begin_with starts) moves situation)
    (hmore : Run (DisciplinedStep topology granted) situation more later) (worker : Fin peers)
    {location : Location} {time : TInner} (htime : time ∈ later.cluster.frontier_of worker location) :
    Covers (situation.cluster.frontier_of worker) location time := by
  classical
  obtain ⟨seen, hreached⟩ := hstarted.reached hadvances hrun worker
  by_cases hlasts : topology.Lasts (granting granted) (location, time)
  · exact hreached.covers_lasting hlasts
  · have horder := hadvances.isStrictOrder (granting granted)
    obtain ⟨extended, hextends, hextended⟩ := hreached.viewed.run hreached.sound hadvances hmore
    have hlater := hreached.sound.run hadvances hmore
    choose added hadded using hextends
    obtain ⟨unseen, hsplit⟩ := hextended.split hlater
    have hparts : ∀ sender, history topology granted later sender =
        ((seen sender).map collect).map (passing topology granted) ++
          ((added sender).map collect).map (passing topology granted) ++ unseen sender := by
      intro sender
      rw [hsplit, ← hadded, List.map_append, List.map_append]
    -- what is listed comes from something that is counted later, and so from something counted before
    have hrest := hlater.accounts.atRest worker
    have hgraph := hrest.builder
    rw [← hgraph] at hadvances hlasts
    obtain ⟨origin, horigin, hcould⟩ := hrest.quiet.exists_count hadvances hextended.confined htime hlasts
    rw [hgraph] at hadvances hlasts hcould
    have hpasses : ¬ topology.Lasts (granting granted) origin :=
      fun hlasting => hlasts (hlasting.could hadvances hcould)
    have hcount : 0 < (later.cluster.workers worker).count origin := horigin
    have htotal := hextended.total_eq origin
    rw [if_pos hpasses] at htotal
    rw [← htotal] at hcount
    simp only [← hadded, List.map_append] at hcount
    obtain ⟨seed, hseed, hbefore⟩ := (hlater.histories hadvances).announced hparts hcount
    exact hreached.covers_below hseed hbefore hcould

/-- In graphs whose summaries advance timestamps workers are safe: in each situation of every disciplined run
    the frontiers of every worker cover all that an existing capability or message could
    result in, reported or not. -/
theorem frontiers_safe (hadvances : topology.Advances TInner)
    (hstarted : Started topology granted builders starts) {moves : List (Move peers TOuter TInner)}
    (hrun : Run (DisciplinedStep topology granted) (begin_with starts) moves situation) (worker : Fin peers)
    {origin target : Location × TInner} (hexists : 0 < situation.existing granted origin)
    (hcould : topology.CouldResultIn origin target) :
    Covers (situation.cluster.frontier_of worker) target.1 target.2 := by
  classical
  obtain ⟨seen, hreached⟩ := hstarted.reached hadvances hrun worker
  by_cases hlasts : topology.Lasts (granting granted) target
  · exact hreached.covers_lasting hlasts
  · -- the origin does not last either, and so is counted, there or before
    have horigin : ¬ topology.Lasts (granting granted) origin :=
      fun hlasting => hlasts (hlasting.could hadvances hcould)
    have horder := hadvances.isStrictOrder (granting granted)
    obtain ⟨unseen, hsplit⟩ := hreached.viewed.split hreached.sound
    have htotal : 0 < total (fun _ : Fin peers => passing topology granted granted)
        (history topology granted situation) origin := by
      rw [total]
      simp only [hreached.sound.sum_history, passing, Finsupp.filter_apply, if_pos horigin]
      exact hexists
    obtain ⟨seed, hseed, hcount⟩ := (hreached.sound.histories hadvances).safe hsplit htotal
    exact hreached.covers_below hseed hcount hcould

end Runs

/-! ### Examples -/

/-- One capability for the first child. -/
def example_granted : List ((Location × Unsigned 64) × ℤ) := [((Location.new_source 1 0, 0), 1)]

def example_topology : Builder (Unsigned 64) := (example_starts ⟨0, Nat.zero_lt_two⟩).pointstamp_tracker.builder

/-- Worker zero sends two messages under its capability, and worker one consumes one of them. -/
def early_builders (worker : Fin 2) :
    SubgraphBuilder (Script (Unsigned 64)) (Unsigned 64) (Unsigned 64) (Unsigned 64) :=
  consumed_builder (if worker.val = 0 then [⟨[], [[(0, -1), (1, 1)]], [[(0, 2)]]⟩] else [])
    (if worker.val = 0 then [] else [⟨[[(0, 1)]], [], []⟩])

def early_build (worker : Fin 2) :
    Option (Subgraph (Script (Unsigned 64)) (Unsigned 64) (Unsigned 64) (Unsigned 64)) :=
  (early_builders worker).build IterationOrder.listed true 20

theorem early_builds : ∀ worker, (early_build worker).isSome := by decide

def early_built (worker : Fin 2) :
    Subgraph (Script (Unsigned 64)) (Unsigned 64) (Unsigned 64) (Unsigned 64) :=
  (early_build worker).get (early_builds worker)

theorem early_initializes : ∀ worker, ((early_built worker).get_internal_summary 20).isSome := by
  decide

def early_starts (worker : Fin 2) :
    Subgraph (Script (Unsigned 64)) (Unsigned 64) (Unsigned 64) (Unsigned 64) :=
  ((early_built worker).get_internal_summary 20).get (early_initializes worker)

theorem early_started :
    Started example_topology (collect example_granted) early_builders early_starts := by
  refine Started.of_expressed (fun worker => (Option.some_get (early_builds worker)).symm) ?_
    (fun worker => (Option.some_get (early_initializes worker)).symm) (by decide) (by decide)
    (Fin.forall_fin_two.mpr ⟨rfl, rfl⟩) (by decide) (by decide)
  decide

/-- Worker one consumes, reports and sends before worker zero has reported that it has sent the
    messages, and worker zero learns that there is one message less than none. -/
def early_moves : List (Move 2 (Unsigned 64) (Unsigned 64)) :=
  [.perform ⟨0, Nat.zero_lt_two⟩ 1 [((Location.new_target 2 0, 0), 2)],
    .event (.scope ⟨1, Nat.one_lt_two⟩ (.activate_child 2)),
    .event (.send ⟨1, Nat.one_lt_two⟩ fun _ => none),
    .event (.recv ⟨0, Nat.zero_lt_two⟩ [⟨1, Nat.one_lt_two⟩]),
    .event (.scope ⟨0, Nat.zero_lt_two⟩ .propagate_pointstamps)]

theorem early_performs : (early_moves.foldlM
    (perform_disciplined 20 example_topology example_granted) (begin_with early_starts)).isSome := by
  decide

def early_last : Situation 2 (Script (Unsigned 64)) (Unsigned 64) (Unsigned 64) (Unsigned 64) :=
  (early_moves.foldlM (perform_disciplined 20 example_topology example_granted)
    (begin_with early_starts)).get early_performs

theorem frontiers_safe_example :
    (early_last.cluster.workers ⟨0, Nat.zero_lt_two⟩).count (Location.new_target 2 0, 0) = -1 ∧
      0 < early_last.existing (collect example_granted) (Location.new_target 2 0, 0) ∧
      Covers (early_last.cluster.frontier_of ⟨0, Nat.zero_lt_two⟩) (Location.new_target 2 0) 0 := by
  have hexists : 0 < early_last.existing (collect example_granted) (Location.new_target 2 0, 0) := by
    decide
  refine ⟨by decide, hexists, frontiers_safe example_topology.advances early_started
    (run_of_perform_disciplined early_started.initialized (Option.some_get early_performs).symm)
    ⟨0, Nat.zero_lt_two⟩ hexists (Builder.CouldResultIn.refl _ _)⟩

/-! ### A summary that goes back in time -/

/-- A source, an operator whose summary subtracts one, and an operator without outputs. -/
def signed_builder (first second : List (Entry (Signed 8))) :
    SubgraphBuilder (Script (Signed 8)) (Signed 8) (Signed 8) (Signed 8) :=
  ((((((((SubgraphBuilder.new_from 1).add_child
    (scripted_child 1 0 [[(Timestamp.minimum, 2)]] [] first)).add_child
    (scripted_child 2 1 [[(Timestamp.minimum, 2)]] [[Antichain.from_elem Subgraph.minus_one]]
      second)).add_child (scripted_child 3 1 [] [[]] [])).add_child
    (scripted_child 4 0 [] [] [])).add_child (scripted_child 5 0 [] [] [])).add_child
    (scripted_child 6 0 [] [] [])).connect ⟨1, 0⟩ ⟨2, 0⟩).connect ⟨2, 0⟩ ⟨3, 0⟩

/-- Both operators drop their capabilities, and at worker zero the first one sends a message at zero. -/
def signed_builders (worker : Fin 2) :
    SubgraphBuilder (Script (Signed 8)) (Signed 8) (Signed 8) (Signed 8) :=
  signed_builder
    [⟨[], [[(Timestamp.minimum, -1)]], [if worker.val = 0 then [(Subgraph.zero, 1)] else []]⟩]
    [⟨[[]], [[(Timestamp.minimum, -1)]], [[]]⟩]

def signed_build (worker : Fin 2) :
    Option (Subgraph (Script (Signed 8)) (Signed 8) (Signed 8) (Signed 8)) :=
  (signed_builders worker).build IterationOrder.listed true 20

theorem signed_builds : ∀ worker, (signed_build worker).isSome := by decide

def signed_built (worker : Fin 2) :
    Subgraph (Script (Signed 8)) (Signed 8) (Signed 8) (Signed 8) :=
  (signed_build worker).get (signed_builds worker)

theorem signed_initializes : ∀ worker, ((signed_built worker).get_internal_summary 20).isSome := by
  decide

def signed_starts (worker : Fin 2) :
    Subgraph (Script (Signed 8)) (Signed 8) (Signed 8) (Signed 8) :=
  ((signed_built worker).get_internal_summary 20).get (signed_initializes worker)

def signed_granted : List ((Location × Signed 8) × ℤ) :=
  [((Location.new_source 1 0, Timestamp.minimum), 1), ((Location.new_source 2 0, Timestamp.minimum), 1)]

def signed_topology : Builder (Signed 8) := (signed_starts ⟨0, Nat.zero_lt_two⟩).pointstamp_tracker.builder

theorem signed_started :
    Started signed_topology (collect signed_granted) signed_builders signed_starts := by
  refine Started.of_expressed (fun worker => (Option.some_get (signed_builds worker)).symm) ?_
    (fun worker => (Option.some_get (signed_initializes worker)).symm) (by decide) (by decide)
    (Fin.forall_fin_two.mpr ⟨rfl, rfl⟩) (by decide) (by decide)
  decide

/-- Worker one propagates that all capabilities are dropped but that of worker zero for the first
    operator, which has sent its message. -/
def signed_events : List (Event 2 (Signed 8) (Signed 8)) :=
  [.scope ⟨0, Nat.zero_lt_two⟩ (.activate_child 2), .scope ⟨1, Nat.one_lt_two⟩ (.activate_child 1),
    .scope ⟨1, Nat.one_lt_two⟩ (.activate_child 2), .send ⟨0, Nat.zero_lt_two⟩ fun _ => none,
    .send ⟨1, Nat.one_lt_two⟩ fun _ => none, .scope ⟨0, Nat.zero_lt_two⟩ (.activate_child 1),
    .recv ⟨1, Nat.one_lt_two⟩ [⟨0, Nat.zero_lt_two⟩, ⟨1, Nat.one_lt_two⟩],
    .scope ⟨1, Nat.one_lt_two⟩ .propagate_pointstamps]

theorem signed_performs : ((signed_events.map Move.event).foldlM
    (perform_disciplined 20 signed_topology signed_granted) (begin_with signed_starts)).isSome := by
  decide

def signed_last : Situation 2 (Script (Signed 8)) (Signed 8) (Signed 8) (Signed 8) :=
  ((signed_events.map Move.event).foldlM (perform_disciplined 20 signed_topology signed_granted)
    (begin_with signed_starts)).get signed_performs

theorem signed_run : Run (DisciplinedStep signed_topology (collect signed_granted))
    (begin_with signed_starts) (signed_events.map Move.event) signed_last :=
  run_of_perform_disciplined signed_started.initialized (Option.some_get signed_performs).symm

/-- From the message at zero the operator may produce one at minus one.  The capability at the least
    time is all that worker one counts, and the summary is not defined on it: nothing is
    covered. -/
theorem frontier_misses_message :
    Started signed_topology (collect signed_granted) signed_builders signed_starts ∧
    Run (DisciplinedStep signed_topology (collect signed_granted)) (begin_with signed_starts)
      (signed_events.map Move.event) signed_last ∧
    0 < signed_last.existing (collect signed_granted) (Location.new_target 2 0, Subgraph.zero) ∧
    signed_topology.CouldResultIn (Location.new_target 2 0, Subgraph.zero)
      (Location.new_source 2 0, Subgraph.minus_one) ∧
    ¬ Covers (signed_last.cluster.frontier_of ⟨1, Nat.one_lt_two⟩) (Location.new_source 2 0)
      Subgraph.minus_one := by
  refine ⟨signed_started, signed_run, by decide, ?_, ?_⟩
  · refine Builder.CouldResultIn.of_step (Builder.mem_implied.mp ?_)
    decide
  · rintro ⟨least, hleast, -⟩
    have hnone : signed_last.cluster.frontier_of ⟨1, Nat.one_lt_two⟩ (Location.new_source 2 0) = [] := by
      decide
    rw [hnone] at hleast
    exact List.not_mem_nil hleast

end Cluster

end Timely
