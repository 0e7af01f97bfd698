/-
  Timely/Quiescence.lean
  ======================
  **When nothing is left to send, every worker knows the frontiers exactly**
  (`timely/src/progress/subgraph.rs`, `Subgraph::send_progress`;
  `timely/src/progress/broadcast.rs`).

  A worker in demand mode keeps local updates to itself as long as its subtractions
  are not global.  Once all batches have arrived and no worker must send, the workers
  need not have counted all that has happened.  They all have the frontiers of the
  capabilities and messages that exist, nevertheless: of what is withheld a subtraction
  has another reason at its place, and an addition comes from what is counted.
-/
import Timely.Safety
import Timely.Withholding

set_option linter.unusedSectionVars false

namespace Timely

open Library

/-! ### Graphs without cycles -/

section Acyclic

variable {S T : Type} [PartialOrder T] [DecidableLE T] [DecidableEq T] [Ord T] [LinearExtension T]
  [PathSummary S T]

/-- In a ranked graph no cycle leaves timestamps as they are. -/
theorem Builder.Ranked.not_cyclic [DecidableEq S] [AdvancingSummary S T] [Nonempty T] {builder : Builder S}
    {rank : Location → ℕ} {bound : ℕ} (h : builder.Ranked rank bound) (location : Location) :
    ¬ builder.Cyclic T location := by
  have hstill : ∀ {first last : Location}, builder.Still T first last → rank first < rank last := by
    intro first last hstill
    obtain ⟨time⟩ := ‹Nonempty T›
    rcases Builder.Arc.default_or_lt (hstill time) with ⟨hdefault, _⟩ | hlt
    · exact h.lt_of_arc hdefault
    · exact absurd hlt (lt_irrefl _)
  have hpath : ∀ {first last : Location}, Relation.TransGen (builder.Still T) first last →
      rank first < rank last := by
    intro first last hpath
    induction hpath with
    | single hstep => exact hstill hstep
    | tail _ hstep ih => exact ih.trans (hstill hstep)
  exact fun hcyclic => lt_irrefl _ (hpath hcyclic)

theorem Builder.not_lasts {builder : Builder S} {origins : Location × T → Prop}
    (hacyclic : ∀ location, ¬ builder.Cyclic T location) (target : Location × T) :
    ¬ builder.Lasts origins target :=
  fun ⟨origin, _, hcyclic, _⟩ => hacyclic origin.1 hcyclic

/-- A pointstamp that is not global has another one before it that is counted. -/
theorem Tracker.Quiet.exists_before {tracker : Tracker S T} (h : tracker.Quiet)
    (hadvances : tracker.builder.Advances T)
    (hacyclic : ∀ location, ¬ tracker.builder.Cyclic T location) {origins : Location × T → Prop}
    (hconfined : tracker.Confined origins) {key : Location × T}
    (hglobal : tracker.is_global key.1 key.2 = some false) :
    ∃ origin : Location × T, 0 < (tracker.pointstamps_at origin.1).count_for origin.2 ∧
      tracker.builder.Precedes origin key := by
  have hlisted : ∀ {location : Location} {time : T},
      time ∈ (tracker.implications_at location).frontier →
      ∃ origin : Location × T, 0 < (tracker.pointstamps_at origin.1).count_for origin.2 ∧
        tracker.builder.CouldResultIn origin (location, time) := by
    intro location time hmem
    refine h.exists_count hadvances hconfined ?_ (Builder.not_lasts hacyclic _)
    exact hmem
  obtain ⟨_, ⟨lower, hlower, hlt⟩ | hredundant⟩ := Tracker.is_global_eq_false_iff.mp hglobal
  · -- dominated: from the pointstamp itself no path leads back in time
    obtain ⟨origin, hcount, hcould⟩ := hlisted hlower
    refine ⟨origin, hcount, ?_, ?_⟩
    · rintro rfl
      exact absurd (hcould.le hadvances) (not_le_of_gt hlt)
    · obtain ⟨time, hpath, htime⟩ := hcould
      exact ⟨time, hpath, htime.trans hlt.le⟩
  · -- two reasons, one of which is a step
    have hsupport : 0 < tracker.support key.1 key.2 := by
      have hbalance := h.balance key.1 key.2
      rw [h.worklist_nil, tally_nil, add_zero] at hbalance
      have hseed : (if key.2 ∈ (tracker.pointstamps_at key.1).frontier then (1 : ℤ) else 0) ≤ 1 := by
        split <;> decide
      omega
    obtain ⟨before, start, hstart, hstep⟩ := Tracker.support_pos_iff.mp hsupport
    obtain ⟨origin, hcount, hcould⟩ := hlisted hstart
    have harrives : tracker.builder.CouldResultIn (before, start) key := Builder.CouldResultIn.of_step hstep
    refine ⟨origin, hcount, ?_, hcould.trans hadvances harrives⟩
    rintro rfl
    have hne : origin ≠ (before, start) := by
      intro heq
      rw [heq] at hstep
      rcases hadvances.still_or_lt hstep with ⟨hstill, _⟩ | hlt
      · exact hacyclic _ (Relation.TransGen.single hstill)
      · exact absurd hlt (lt_irrefl _)
    exact hacyclic _ (Builder.Precedes.cyclic hadvances ⟨hne, hcould⟩ harrives)

end Acyclic

namespace Cluster

variable {peers : ℕ} {O S TOuter TInner : Type}
  [PartialOrder TOuter] [DecidableLE TOuter] [DecidableEq TOuter] [Ord TOuter]
  [LinearExtension TOuter]
  [PartialOrder TInner] [DecidableLE TInner] [DecidableEq TInner] [Ord TInner]
  [LinearExtension TInner] [Refines TOuter TInner] [PathSummary S TInner]

/-- All that has been done is reported, no batch is under way, and no worker has anything that it must
    send. -/
structure Silent (situation : Situation peers O S TOuter TInner) : Prop where
  unreported : ∀ worker, situation.unreported worker = []
  channels : ∀ sender receiver, situation.cluster.broadcast.channels sender receiver = []
  final : ∀ worker, (situation.cluster.workers worker).final_pointstamp.updates = []
  locals : ∀ worker, (situation.cluster.workers worker).local_pointstamp.updates = [] ∨
    (situation.cluster.workers worker).must_send = some false

/-- A worker withholds a subtraction only where it is not global. -/
theorem Silent.not_global {situation : Situation peers O S TOuter TInner} (h : Silent situation)
    {worker : Fin peers} {key : Location × TInner}
    (hnegative : (situation.cluster.workers worker).local_pointstamp.value key < 0) :
    (situation.cluster.workers worker).pointstamp_tracker.is_global key.1 key.2 = some false := by
  rcases h.locals worker with hnil | hsilent
  · unfold ChangeBatch.value at hnegative
    rw [hnil, tally_nil] at hnegative
    exact absurd hnegative (lt_irrefl 0)
  · unfold Subgraph.must_send at hsilent
    split at hsilent
    case isTrue => cases hsilent
    case isFalse =>
      -- the key is among the compacted updates, with its sum
      obtain ⟨change, hchange, rfl⟩ : ∃ change ∈ (situation.cluster.workers worker).local_pointstamp.compact.updates,
          change.1 = key := by
        refine exists_mem_of_tally_ne_zero ?_
        rw [ChangeBatch.tally_compact]
        exact hnegative.ne
      have hvalue : change.2 < 0 := by
        have hsum := tally_of_mem_of_nodup (ChangeBatch.compact_nodup_keys _) hchange
        rw [ChangeBatch.tally_compact] at hsum
        rw [← hsum]
        exact hnegative
      obtain ⟨is_global, hglobal, hfalse⟩ := Option.map_eq_some_iff.mp
        (anyM_eq_some_false hsilent change hchange)
      rw [decide_eq_true hvalue, Bool.and_true] at hfalse
      rw [hglobal, hfalse]

variable {topology : Builder S} {granted : Location × TInner →₀ ℤ}
  {situation : Situation peers O S TOuter TInner}

section Accounts

variable [PartialOrder S] [DecidableLE S] [Operate O TInner]

/-- All workers count the same: what all were granted and have sent. -/
theorem Silent.count_eq (h : Silent situation) (hsound : Sound topology granted situation) (worker : Fin peers)
    (key : Location × TInner) : (situation.cluster.workers worker).count key =
      ∑ sender, (granted key + situation.cluster.sent_value sender key) := by
  have hknown := hsound.accounts.known worker key trivial
  have hfinal : (situation.cluster.workers worker).final_pointstamp.value key = 0 := by
    unfold ChangeBatch.value
    rw [h.final, tally_nil]
  unfold Subgraph.known at hknown
  rw [hfinal, add_zero] at hknown
  rw [hknown, Finset.sum_add_distrib]
  simp only [hsound.accounts.received_eq_sent (h.channels _ worker)]

theorem Silent.done_eq (h : Silent situation) (worker : Fin peers) (key : Location × TInner) :
    situation.done worker key = situation.cluster.reported worker key := by
  rw [Situation.done, Situation.outstanding, h.unreported worker, List.map_nil, tally_nil, add_zero]

/-- What exists is what is counted, and what is withheld. -/
theorem Silent.existing_eq (h : Silent situation) (hsound : Sound topology granted situation) (worker : Fin peers)
    (key : Location × TInner) : situation.existing granted key = (situation.cluster.workers worker).count key +
      ∑ sender, (situation.cluster.workers sender).local_pointstamp.value key := by
  rw [h.count_eq hsound, ← Finset.sum_add_distrib, Situation.existing]
  refine Finset.sum_congr rfl fun sender _ => ?_
  rw [h.done_eq, hsound.accounts.reported]
  ring

section Runs

variable
  {builders : Fin peers → SubgraphBuilder O S TOuter TInner}
  {starts : Fin peers → Subgraph O S TOuter TInner}

/-- What is counted comes from something that exists. -/
theorem Silent.exists_existing (h : Silent situation)
    (hacyclic : ∀ location, ¬ topology.Cyclic TInner location)
    (hreached : ∀ worker, ∃ seen, Reached topology granted situation worker seen) (worker : Fin peers)
    {key : Location × TInner} (hcount : 0 < (situation.cluster.workers worker).count key) :
    ∃ origin, 0 < situation.existing granted origin ∧ topology.CouldResultIn origin key := by
  obtain ⟨seen, hworker⟩ := hreached worker
  have hadvances := hworker.advances
  have hsame : ∀ other key, (situation.cluster.workers other).count key = (situation.cluster.workers worker).count key :=
    fun other key => (h.count_eq hworker.sound other key).trans (h.count_eq hworker.sound worker key).symm
  have hfinite : {key | 0 < (situation.cluster.workers worker).count key}.Finite := by
    refine (finite_total (fun _ : Fin peers => granted) situation.cluster.batches).subset fun key hkey => ?_
    have htotal : total (fun _ : Fin peers => granted) situation.cluster.batches key =
        (situation.cluster.workers worker).count key := by
      rw [h.count_eq hworker.sound, total]
      simp only [sum_batches]
    change total (fun _ : Fin peers => granted) situation.cluster.batches key ≠ 0
    rw [htotal]
    exact ne_of_gt hkey
  have horder := hadvances.isStrictOrder (granting granted)
  -- by induction along the order of what is counted
  refine (hfinite.wellFoundedOn (r := topology.Passes (granting granted))).induction hcount
    (P := fun key => ∃ origin, 0 < situation.existing granted origin ∧ topology.CouldResultIn origin key) ?_
  intro key hkey ih
  by_cases hnegative : ∃ other, (situation.cluster.workers other).local_pointstamp.value key < 0
  · obtain ⟨other, hother⟩ := hnegative
    obtain ⟨seen', hviewed⟩ := hreached other
    have hquiet := (hworker.sound.accounts.atRest other).quiet
    have hbuilder := hviewed.builder
    have hbefore : ∃ origin, 0 < (situation.cluster.workers other).count origin ∧ topology.Precedes origin key := by
      rw [← hbuilder] at hadvances hacyclic ⊢
      exact hquiet.exists_before hadvances hacyclic hviewed.viewed.confined (h.not_global hother)
    obtain ⟨origin, horigin, hprecedes⟩ := hbefore
    have harises : topology.Arises (granting granted) origin := by
      rw [hviewed.viewed.count] at horigin
      exact hviewed.sound.arises_of_count hviewed.viewed.received horigin
    rw [hsame other] at horigin
    obtain ⟨first, hfirst, hcould⟩ := ih origin horigin ⟨hprecedes, harises, Builder.not_lasts hacyclic key⟩
    exact ⟨first, hfirst, hcould.trans hadvances hprecedes.2⟩
  · refine ⟨key, ?_, Builder.CouldResultIn.refl _ _⟩
    rw [h.existing_eq hworker.sound worker]
    exact add_pos_of_pos_of_nonneg hkey
      (Finset.sum_nonneg fun sender _ => not_lt.mp fun hsender => hnegative ⟨sender, hsender⟩)

/-- What an existing pointstamp could result in is covered. -/
theorem Reached.covers_existing {worker : Fin peers} {seen : Fin peers → List (ProgressVec TInner)}
    (h : Reached topology granted situation worker seen) {origin target : Location × TInner}
    (hexists : 0 < situation.existing granted origin) (hcould : topology.CouldResultIn origin target) :
    Covers (situation.cluster.frontier_of worker) target.1 target.2 := by
  classical
  by_cases hlasts : topology.Lasts (granting granted) origin
  · exact h.covers_lasting (hlasts.could h.advances hcould)
  · have horder := h.advances.isStrictOrder (granting granted)
    obtain ⟨unseen, hsplit⟩ := h.viewed.split h.sound
    have htotal : 0 < total (fun _ : Fin peers => passing topology granted granted)
        (history topology granted situation) origin := by
      rw [total]
      simp only [h.sound.sum_history, passing, Finsupp.filter_apply, if_pos hlasts]
      exact hexists
    obtain ⟨seed, hseed, hcount⟩ := (h.sound.histories h.advances).safe hsplit htotal
    exact h.covers_below hseed hcount hcould

/-- What a worker lists comes from something that exists. -/
theorem Silent.exists_listed (h : Silent situation)
    (hacyclic : ∀ location, ¬ topology.Cyclic TInner location)
    (hreached : ∀ worker, ∃ seen, Reached topology granted situation worker seen) (worker : Fin peers)
    {location : Location} {time : TInner} (htime : time ∈ situation.cluster.frontier_of worker location) :
    ∃ origin, 0 < situation.existing granted origin ∧ topology.CouldResultIn origin (location, time) := by
  obtain ⟨seen, hworker⟩ := hreached worker
  have hquiet := (hworker.sound.accounts.atRest worker).quiet
  have hadvances := hworker.advances
  have hlisted : ∃ origin : Location × TInner, 0 < (situation.cluster.workers worker).count origin ∧
      topology.CouldResultIn origin (location, time) := by
    have hbuilder := hworker.builder
    rw [← hbuilder] at hadvances hacyclic ⊢
    exact hquiet.exists_count hadvances hworker.viewed.confined htime (Builder.not_lasts hacyclic _)
  obtain ⟨origin, hcount, hcould⟩ := hlisted
  obtain ⟨first, hexists, hfirst⟩ := h.exists_existing hacyclic hreached worker hcount
  exact ⟨first, hexists, hfirst.trans hworker.advances hcould⟩

/-- In graphs without cycles that leave timestamps as they are: in every disciplined run, in eager mode
    and in demand mode, once all is reported, all batches have arrived and no worker must send, the frontiers
    of every worker list the earliest times that the existing capabilities and messages could result in. -/
theorem frontiers_exact_when_silent (hadvances : topology.Advances TInner)
    (hacyclic : ∀ location, ¬ topology.Cyclic TInner location)
    (hstarted : Started topology granted builders starts) {moves : List (Move peers TOuter TInner)}
    (hrun : Run (DisciplinedStep topology granted) (begin_with starts) moves situation) (hsilent : Silent situation)
    (worker : Fin peers) (location : Location) :
    IsFrontier (situation.cluster.frontier_of worker location) (fun time =>
      ∃ origin, 0 < situation.existing granted origin ∧ topology.CouldResultIn origin (location, time)) := by
  have hreached := fun other => hstarted.reached hadvances hrun other
  obtain ⟨seen, hworker⟩ := hreached worker
  have hquiet := (hworker.sound.accounts.atRest worker).quiet
  refine ⟨fun time htime => ?_, (hquiet.implications location).frontier.incomparable, ?_⟩
  · exact hsilent.exists_listed hacyclic hreached worker htime
  · rintro time ⟨origin, hexists, hcould⟩
    exact hworker.covers_existing hexists hcould

end Runs

end Accounts

/-! ### An example -/

/-- In demand mode, worker zero sends a message at one under its capability at zero. -/
def demand_builders (worker : Fin 2) :
    SubgraphBuilder (Script (Unsigned 64)) (Unsigned 64) (Unsigned 64) (Unsigned 64) :=
  example_builder (if worker.val = 0 then [⟨[], [[]], [[(1, 1)]]⟩] else [])

def demand_build (worker : Fin 2) :
    Option (Subgraph (Script (Unsigned 64)) (Unsigned 64) (Unsigned 64) (Unsigned 64)) :=
  (demand_builders worker).build IterationOrder.listed false 20

theorem demand_builds : ∀ worker, (demand_build worker).isSome := by decide

def demand_built (worker : Fin 2) :
    Subgraph (Script (Unsigned 64)) (Unsigned 64) (Unsigned 64) (Unsigned 64) :=
  (demand_build worker).get (demand_builds worker)

theorem demand_initializes : ∀ worker, ((demand_built worker).get_internal_summary 20).isSome := by
  decide

def demand_starts (worker : Fin 2) :
    Subgraph (Script (Unsigned 64)) (Unsigned 64) (Unsigned 64) (Unsigned 64) :=
  ((demand_built worker).get_internal_summary 20).get (demand_initializes worker)

def demand_topology : Builder (Unsigned 64) := (demand_starts ⟨0, Nat.zero_lt_two⟩).pointstamp_tracker.builder

theorem demand_started :
    Started demand_topology (collect example_granted) demand_builders demand_starts := by
  refine Started.of_expressed (fun worker => (Option.some_get (demand_builds worker)).symm) ?_
    (fun worker => (Option.some_get (demand_initializes worker)).symm) (by decide) (by decide)
    (Fin.forall_fin_two.mpr ⟨rfl, rfl⟩) (by decide) (by decide)
  decide

def demand_events : List (Event 2 (Unsigned 64) (Unsigned 64)) :=
  [.scope ⟨0, Nat.zero_lt_two⟩ (.activate_child 1)]

theorem demand_performs : ((demand_events.map Move.event).foldlM
    (perform_disciplined 20 demand_topology example_granted) (begin_with demand_starts)).isSome := by
  decide

/-- Worker zero must not send the addition of its message. -/
def demand_last : Situation 2 (Script (Unsigned 64)) (Unsigned 64) (Unsigned 64) (Unsigned 64) :=
  ((demand_events.map Move.event).foldlM (perform_disciplined 20 demand_topology example_granted)
    (begin_with demand_starts)).get demand_performs

theorem demand_is_acyclic : demand_topology.is_acyclic IterationOrder.listed = some true := by decide

theorem frontiers_exact_when_silent_example :
    0 < demand_last.existing (collect example_granted) (Location.new_target 2 0, 1) ∧
    (demand_last.cluster.workers ⟨1, Nat.one_lt_two⟩).count (Location.new_target 2 0, 1) = 0 ∧
    IsFrontier (demand_last.cluster.frontier_of ⟨1, Nat.one_lt_two⟩ (Location.new_target 2 0)) (fun time =>
      ∃ origin, 0 < demand_last.existing (collect example_granted) origin ∧
        demand_topology.CouldResultIn origin (Location.new_target 2 0, time)) := by
  have hsilent : Silent demand_last := ⟨by decide, by decide, by decide, by decide⟩
  obtain ⟨rank, bound, hranked⟩ := Builder.ranked_of_is_acyclic demand_is_acyclic
  exact ⟨by decide, by decide, frontiers_exact_when_silent demand_topology.advances hranked.not_cyclic
    demand_started (run_of_perform_disciplined demand_started.initialized
      (Option.some_get demand_performs).symm) hsilent ⟨1, Nat.one_lt_two⟩ (Location.new_target 2 0)⟩

end Cluster

end Timely
