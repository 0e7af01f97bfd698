/-
  Timely/Discipline.lean
  ======================
  **Workers that keep to the interface of capabilities**
  (`timely/src/progress/subgraph.rs`, `timely/src/progress/broadcast.rs`).

  A worker may hold a capability or produce a message where it has held a capability
  or has consumed a message from which a path leads there.  What its operators do is
  not reported at once: a message may have been taken, and reported, by another
  worker before its producer reports it.  This module says when the workers of a
  dataflow keep to the interface in what they do and in what they report, which is
  decidable for states that are written down, and from which states they start.
-/
import Timely.Cluster
import Timely.CouldResultIn
import Timely.Library.Justification

set_option linter.unusedSectionVars false

namespace Timely

open Library

namespace Builder

variable {S T : Type} [PartialOrder T] [DecidableLE T] [DecidableEq T] [PathSummary S T]

/-- The pointstamps that some steps lead to, at most as many as given. -/
def spread (builder : Builder S) : ℕ → Location × T → List (Location × T)
  | 0, origin => [origin]
  | steps + 1, origin =>
    origin :: (builder.implied origin.1 origin.2).flatMap fun implied =>
      builder.spread steps (implied.2, implied.1)

/-- A few steps lead from a pointstamp to another one, or earlier. -/
def Leads (builder : Builder S) (origin target : Location × T) : Prop :=
  origin ≠ target ∧ ∃ reached ∈ builder.spread 2 origin, reached.1 = target.1 ∧ reached.2 ≤ target.2

instance (builder : Builder S) (origin target : Location × T) :
    Decidable (builder.Leads origin target) :=
  inferInstanceAs (Decidable (_ ∧ _))

theorem path_of_mem_spread {builder : Builder S} {steps : ℕ} {origin reached : Location × T}
    (h : reached ∈ builder.spread steps origin) :
    Relation.ReflTransGen builder.step origin reached := by
  induction steps generalizing origin with
  | zero =>
    rw [List.mem_singleton.mp h]
  | succ steps ih =>
    rcases List.mem_cons.mp h with rfl | hmem
    · exact Relation.ReflTransGen.refl
    · obtain ⟨⟨time, location⟩, himplied, hreached⟩ := List.mem_flatMap.mp hmem
      exact Relation.ReflTransGen.head (mem_implied.mp himplied) (ih hreached)

theorem Leads.precedes {builder : Builder S} {origin target : Location × T}
    (h : builder.Leads origin target) : builder.Precedes origin target := by
  obtain ⟨hne, reached, hmem, hlocation, htime⟩ := h
  have hpath := path_iff.mpr (path_of_mem_spread hmem)
  rw [hlocation] at hpath
  exact ⟨hne, reached.2, hpath, htime⟩

end Builder

namespace Cluster

variable {peers : ℕ} {O S TOuter TInner : Type}
  [PartialOrder TOuter] [DecidableLE TOuter] [DecidableEq TOuter] [Ord TOuter]
  [LinearExtension TOuter]
  [PartialOrder TInner] [DecidableLE TInner] [DecidableEq TInner] [Ord TInner]
  [LinearExtension TInner] [Refines TOuter TInner] [PathSummary S TInner]

/-! ### Capabilities and messages -/

/-- Capabilities are held by workers, messages are under way between them. -/
def capability (key : Location × TInner) : Prop := key.1.is_source = true

instance : DecidablePred (capability : Location × TInner → Prop) :=
  fun key => inferInstanceAs (Decidable (key.1.is_source = true))

/-- The capabilities and messages that exist by what has been reported: what every worker was granted, and
    all local updates. -/
def existing (granted : Location × TInner →₀ ℤ) (cluster : Cluster peers O S TOuter TInner)
    (key : Location × TInner) : ℤ :=
  ∑ worker, (granted key + cluster.reported worker key)

/-- The capabilities that a worker has held when it has last sent its updates. -/
def held_before (granted : Location × TInner →₀ ℤ) (cluster : Cluster peers O S TOuter TInner)
    (worker : Fin peers) (key : Location × TInner) : ℤ :=
  if capability key then granted key + cluster.sent_value worker key else 0

/-! ### What has not been reported -/

/-- A cluster, and what the nodes of each worker have done since they have last reported. -/
structure Situation (peers : ℕ) (O S TOuter TInner : Type) [Ord TOuter] [Ord TInner] where
  cluster : Cluster peers O S TOuter TInner
  unreported : Fin peers → List (ℕ × (Location × TInner) × ℤ)

namespace Situation

/-- Everything has been reported. -/
def settled (cluster : Cluster peers O S TOuter TInner) : Situation peers O S TOuter TInner :=
  ⟨cluster, fun _ => []⟩

variable (situation : Situation peers O S TOuter TInner)

/-- What a worker has done and not reported. -/
def outstanding (worker : Fin peers) (key : Location × TInner) : ℤ :=
  tally ((situation.unreported worker).map Prod.snd) key

/-- What a node of a worker has done and not reported. -/
def left (worker : Fin peers) (node : ℕ) (key : Location × TInner) : ℤ :=
  tally (((situation.unreported worker).filter fun change => change.1 = node).map Prod.snd) key

/-- What a worker has done. -/
def done (worker : Fin peers) (key : Location × TInner) : ℤ :=
  situation.cluster.reported worker key + situation.outstanding worker key

/-- The capabilities and messages that exist. -/
def existing (granted : Location × TInner →₀ ℤ) (key : Location × TInner) : ℤ :=
  ∑ worker, (granted key + situation.done worker key)

/-- The capabilities that a worker holds. -/
def held (granted : Location × TInner →₀ ℤ) (worker : Fin peers) (key : Location × TInner) : ℤ :=
  if capability key then granted key + situation.done worker key else 0

end Situation

/-- What the interface of capabilities enforces: in a batch, and in what is to follow it, a worker adds
    where, there or with a path from there, it has held a capability, or with a path from there takes
    something away; it holds no capability less than no times, and messages are consumed that exist. -/
structure Disciplined (topology : Builder S) (granted : Location × TInner →₀ ℤ)
    (situation : Situation peers O S TOuter TInner) : Prop where
  supported : ∀ worker, Supported topology.Precedes (situation.cluster.held_before granted worker)
    fun key => (situation.cluster.workers worker).local_pointstamp.value key
  performed : ∀ worker, Supported topology.Precedes (situation.cluster.held_before granted worker)
    fun key => (situation.cluster.workers worker).local_pointstamp.value key +
      situation.outstanding worker key
  holds : ∀ worker key, 0 ≤ situation.held granted worker key
  exist : ∀ key, 0 ≤ situation.existing granted key

namespace Situation

variable {granted : Location × TInner →₀ ℤ} {cluster : Cluster peers O S TOuter TInner}

@[simp] theorem outstanding_settled (worker : Fin peers) (key : Location × TInner) :
    (settled cluster).outstanding worker key = 0 := rfl

@[simp] theorem done_settled (worker : Fin peers) (key : Location × TInner) :
    (settled cluster).done worker key = cluster.reported worker key := add_zero _

@[simp] theorem existing_settled (key : Location × TInner) :
    (settled cluster).existing granted key = cluster.existing granted key := by
  unfold existing Cluster.existing
  simp only [done_settled]

end Situation

/-! ### Moves -/

/-- The node of a worker that reports in a step, all that it has done: the child that is activated, or what
    is outside of the scope. -/
def Event.reporter : Event peers TOuter TInner → Option (Fin peers × ℕ)
  | .scope worker (.activate_child child_index) => some (worker, child_index)
  | .scope worker _ => some (worker, 0)
  | .send _ _ => none
  | .recv _ _ => none

/-- A node of a worker does something, or a step is taken. -/
inductive Move (peers : ℕ) (TOuter TInner : Type) where
  | perform (worker : Fin peers) (node : ℕ) (changes : ProgressVec TInner)
  | event (event : Event peers TOuter TInner)

namespace Situation

/-- A node has made some changes. -/
def perform (situation : Situation peers O S TOuter TInner) (worker : Fin peers) (node : ℕ)
    (changes : ProgressVec TInner) : Situation peers O S TOuter TInner :=
  { situation with
    unreported := Function.update situation.unreported worker
      (situation.unreported worker ++ changes.map fun change => (node, change)) }

/-- A step has been taken: the node that reports has nothing left to report. -/
def follow (situation : Situation peers O S TOuter TInner) (event : Event peers TOuter TInner)
    (after : Cluster peers O S TOuter TInner) : Situation peers O S TOuter TInner where
  cluster := after
  unreported :=
    match event.reporter with
    | some (worker, node) => Function.update situation.unreported worker
        ((situation.unreported worker).filter fun change => change.1 ≠ node)
    | none => situation.unreported

/-- The moves from a situation. -/
inductive Moves [Operate O TInner] : Situation peers O S TOuter TInner → Move peers TOuter TInner →
    Situation peers O S TOuter TInner → Prop
  | perform {situation : Situation peers O S TOuter TInner} (worker : Fin peers) (node : ℕ)
      (changes : ProgressVec TInner) :
      Moves situation (.perform worker node changes) (situation.perform worker node changes)
  | event {situation : Situation peers O S TOuter TInner} {event : Event peers TOuter TInner}
      {after : Cluster peers O S TOuter TInner} :
      Step situation.cluster event after → Moves situation (.event event) (situation.follow event after)

section Moves

variable (situation : Situation peers O S TOuter TInner) {worker : Fin peers} {node : ℕ}
  (changes : ProgressVec TInner) (key : Location × TInner)

theorem outstanding_perform : (situation.perform worker node changes).outstanding worker key =
    situation.outstanding worker key + tally changes key := by
  have hunreported : (situation.perform worker node changes).unreported worker =
      situation.unreported worker ++ changes.map fun change => (node, change) :=
    Function.update_self _ _ _
  have hchanges : (changes.map fun change => (node, change)).map Prod.snd = changes := by
    simp only [List.map_map, Function.comp_def, List.map_id']
  rw [outstanding, hunreported, List.map_append, tally_append, hchanges]
  rfl

theorem outstanding_perform_of_ne {other : Fin peers} (hother : other ≠ worker) :
    (situation.perform worker node changes).outstanding other key = situation.outstanding other key := by
  have hkept : (situation.perform worker node changes).unreported other = situation.unreported other :=
    Function.update_of_ne hother _ _
  rw [outstanding, hkept]
  rfl

theorem left_perform : (situation.perform worker node changes).left worker node key =
    situation.left worker node key + tally changes key := by
  have hunreported : (situation.perform worker node changes).unreported worker =
      situation.unreported worker ++ changes.map fun change => (node, change) :=
    Function.update_self _ _ _
  have hchanges : ((changes.map fun change => (node, change)).filter fun change => change.1 = node).map
      Prod.snd = changes := by
    simp only [List.filter_map, Function.comp_def, decide_true, List.filter_true, List.map_map, List.map_id']
  rw [left, hunreported, List.filter_append, List.map_append, tally_append, hchanges]
  rfl

theorem left_perform_of_ne {other : Fin peers} {second : ℕ} (hother : other ≠ worker ∨ second ≠ node) :
    (situation.perform worker node changes).left other second key = situation.left other second key := by
  by_cases hworker : other = worker
  · subst hworker
    have hsecond := hother.resolve_left (not_not_intro rfl)
    have hunreported : (situation.perform other node changes).unreported other =
        situation.unreported other ++ changes.map fun change => (node, change) :=
      Function.update_self _ _ _
    have hnone : (changes.map fun change => (node, change)).filter (fun change => change.1 = second) = [] := by
      simp only [List.filter_map, Function.comp_def, decide_eq_false (Ne.symm hsecond), List.filter_false,
        List.map_nil]
    rw [left, hunreported, List.filter_append, hnone, List.append_nil]
    rfl
  · have hkept : (situation.perform worker node changes).unreported other = situation.unreported other :=
      Function.update_of_ne hworker _ _
    rw [left, hkept]
    rfl

end Moves

/-- What a worker has not reported is what some node has not reported, and the rest. -/
theorem tally_split (changes : List (ℕ × (Location × TInner) × ℤ)) (node : ℕ) (key : Location × TInner) :
    tally (changes.map Prod.snd) key =
      tally ((changes.filter fun change => change.1 = node).map Prod.snd) key +
        tally ((changes.filter fun change => change.1 ≠ node).map Prod.snd) key := by
  induction changes with
  | nil => rfl
  | cons change changes ih =>
    rw [List.map_cons, tally_cons, ih, List.filter_cons, List.filter_cons]
    by_cases hnode : change.1 = node
    · simp only [hnode, decide_true, ne_eq, not_true_eq_false, decide_false, if_true, List.map_cons,
        tally_cons, Bool.false_eq_true, if_false]
      ring
    · simp only [hnode, decide_false, ne_eq, not_false_eq_true, decide_true, if_true, List.map_cons,
        tally_cons, Bool.false_eq_true, if_false]
      ring

/-- What a worker has not reported is what its nodes have not reported. -/
theorem tally_of_nodes (changes : List (ℕ × (Location × TInner) × ℤ)) (node : ℕ) :
    ∃ count, node < count ∧ ∀ key, tally (changes.map Prod.snd) key =
      ∑ node ∈ Finset.range count, tally ((changes.filter fun change => change.1 = node).map Prod.snd) key := by
  have hbelow : ∃ count, node < count ∧ ∀ change ∈ changes, change.1 < count := by
    induction changes with
    | nil => exact ⟨node + 1, Nat.lt_succ_self _, fun change hchange => absurd hchange List.not_mem_nil⟩
    | cons change changes ih =>
      obtain ⟨count, hnode, hcount⟩ := ih
      refine ⟨max (change.1 + 1) count, lt_of_lt_of_le hnode (le_max_right _ _),
        List.forall_mem_cons.mpr ⟨?_, fun other hother => ?_⟩⟩
      · exact lt_of_lt_of_le (Nat.lt_succ_self _) (le_max_left _ _)
      · exact lt_of_lt_of_le (hcount other hother) (le_max_right _ _)
  obtain ⟨count, hnode, hcount⟩ := hbelow
  refine ⟨count, hnode, fun key => ?_⟩
  clear hnode
  induction changes with
  | nil => exact (Finset.sum_const_zero).symm
  | cons change changes ih =>
    obtain ⟨hfirst, hrest⟩ := List.forall_mem_cons.mp hcount
    have hsplit : ∀ node, tally (((change :: changes).filter fun change => change.1 = node).map Prod.snd) key =
        (if change.1 = node then if change.2.1 = key then change.2.2 else 0 else 0) +
          tally ((changes.filter fun change => change.1 = node).map Prod.snd) key := by
      intro node
      rw [List.filter_cons]
      by_cases hnode : change.1 = node
      · simp only [hnode, decide_true, if_true, List.map_cons, tally_cons]
      · simp only [hnode, decide_false, Bool.false_eq_true, if_false, zero_add]
    simp only [hsplit, Finset.sum_add_distrib]
    rw [List.map_cons, tally_cons, ih hrest, Finset.sum_ite_eq, if_pos (Finset.mem_range.mpr hfirst)]

theorem exists_outstanding_eq (situation : Situation peers O S TOuter TInner) (worker : Fin peers) (node : ℕ) :
    ∃ count, node < count ∧ ∀ key, situation.outstanding worker key =
      ∑ node ∈ Finset.range count, situation.left worker node key :=
  tally_of_nodes _ node

/-- The node that reports has nothing left. -/
theorem left_follow_reporter (situation : Situation peers O S TOuter TInner)
    {event : Event peers TOuter TInner} (after : Cluster peers O S TOuter TInner) {worker : Fin peers} {node : ℕ}
    (h : event.reporter = some (worker, node)) (key : Location × TInner) :
    (situation.follow event after).left worker node key = 0 := by
  have hnone : (fun change : ℕ × (Location × TInner) × ℤ =>
      decide (change.1 = node) && decide (change.1 ≠ node)) = fun _ => false := by
    funext change
    by_cases h : change.1 = node <;> simp [h]
  unfold left follow
  rw [h]
  dsimp only
  rw [Function.update_self, List.filter_filter, hnone, List.filter_false]
  rfl

/-- The others have as much left as before. -/
theorem left_follow_of_ne (situation : Situation peers O S TOuter TInner)
    {event : Event peers TOuter TInner} (after : Cluster peers O S TOuter TInner) {worker : Fin peers} {node : ℕ}
    (h : event.reporter ≠ some (worker, node)) (key : Location × TInner) :
    (situation.follow event after).left worker node key = situation.left worker node key := by
  unfold left follow
  cases hreporter : event.reporter with
  | none => rfl
  | some reporter =>
    obtain ⟨reporting, reported⟩ := reporter
    dsimp only
    by_cases hworker : worker = reporting
    · subst hworker
      have hnode : node ≠ reported := by
        rintro rfl
        exact h hreporter
      have hkept : (fun change : ℕ × (Location × TInner) × ℤ =>
          decide (change.1 = node) && decide (change.1 ≠ reported)) = fun change => decide (change.1 = node) := by
        funext change
        by_cases h : change.1 = node <;> simp [h, hnode]
      rw [Function.update_self, List.filter_filter, hkept]
    · rw [Function.update_of_ne hworker]

theorem outstanding_follow (situation : Situation peers O S TOuter TInner)
    (event : Event peers TOuter TInner) (after : Cluster peers O S TOuter TInner) (worker : Fin peers)
    (key : Location × TInner) :
    (situation.follow event after).outstanding worker key = situation.outstanding worker key ∨
      ∃ node, (situation.follow event after).outstanding worker key =
        situation.outstanding worker key - situation.left worker node key := by
  unfold outstanding left follow
  cases event.reporter with
  | none => exact Or.inl rfl
  | some reporter =>
    obtain ⟨reporting, reported⟩ := reporter
    dsimp only
    by_cases hworker : worker = reporting
    · subst hworker
      rw [Function.update_self]
      exact Or.inr ⟨reported, eq_sub_of_add_eq' (tally_split _ reported key).symm⟩
    · rw [Function.update_of_ne hworker]
      exact Or.inl rfl

/-- Where everything has been reported it stays reported. -/
theorem follow_settled (cluster after : Cluster peers O S TOuter TInner) (event : Event peers TOuter TInner) :
    (settled cluster).follow event after = settled after := by
  unfold follow settled
  congr 1
  split
  · exact Function.update_eq_self_iff.mpr rfl
  · rfl

end Situation

/-! ### A test for discipline -/

section Test

/-- What a worker was granted and has sent. -/
def sent_updates (granted : List ((Location × TInner) × ℤ)) (cluster : Cluster peers O S TOuter TInner)
    (worker : Fin peers) : List ((Location × TInner) × ℤ) :=
  granted ++ (cluster.broadcast.sent worker).flatten

/-- What a worker has reported since it has last sent its updates. -/
def local_updates (cluster : Cluster peers O S TOuter TInner) (worker : Fin peers) :
    List ((Location × TInner) × ℤ) :=
  (cluster.workers worker).local_pointstamp.updates

/-- What a worker has done since it has last sent its updates. -/
def Situation.recent_updates (situation : Situation peers O S TOuter TInner) (worker : Fin peers) :
    List ((Location × TInner) × ℤ) :=
  situation.cluster.local_updates worker ++ (situation.unreported worker).map Prod.snd

/-- What a worker was granted and has done. -/
def Situation.all_updates (granted : List ((Location × TInner) × ℤ))
    (situation : Situation peers O S TOuter TInner) (worker : Fin peers) : List ((Location × TInner) × ℤ) :=
  situation.cluster.sent_updates granted worker ++ situation.recent_updates worker

/-- Support of some updates by others, as they are written down. -/
def Underpinned (topology : Builder S) (before updates : List ((Location × TInner) × ℤ)) : Prop :=
  ∀ change ∈ updates, 0 < tally updates change.1 →
    (∃ lower ∈ updates, tally updates lower.1 < 0 ∧ topology.Leads lower.1 change.1) ∨
    ∃ lower ∈ before, capability lower.1 ∧ 0 < tally before lower.1 ∧
      (lower.1 = change.1 ∨ topology.Leads lower.1 change.1)

instance (topology : Builder S) (before updates : List ((Location × TInner) × ℤ)) :
    Decidable (Underpinned topology before updates) :=
  inferInstanceAs (Decidable (∀ change ∈ updates, _ → _))

/-- Discipline, of what is written down. -/
def Passed (topology : Builder S) (granted : List ((Location × TInner) × ℤ))
    (situation : Situation peers O S TOuter TInner) : Prop :=
  (∀ worker, Underpinned topology (situation.cluster.sent_updates granted worker)
    (situation.cluster.local_updates worker)) ∧
  (∀ worker, Underpinned topology (situation.cluster.sent_updates granted worker)
    (situation.recent_updates worker)) ∧
  (∀ worker, ∀ change ∈ situation.all_updates granted worker, capability change.1 →
    0 ≤ tally (situation.all_updates granted worker) change.1) ∧
  ∀ worker, ∀ change ∈ situation.all_updates granted worker,
    0 ≤ ∑ other, tally (situation.all_updates granted other) change.1

instance (topology : Builder S) (granted : List ((Location × TInner) × ℤ))
    (situation : Situation peers O S TOuter TInner) : Decidable (Passed topology granted situation) :=
  inferInstanceAs (Decidable (_ ∧ _ ∧ _ ∧ _))

variable {topology : Builder S} {granted : List ((Location × TInner) × ℤ)}
  {cluster : Cluster peers O S TOuter TInner} {situation : Situation peers O S TOuter TInner}

theorem tally_sent_updates (worker : Fin peers) (key : Location × TInner) :
    tally (cluster.sent_updates granted worker) key =
      collect granted key + cluster.sent_value worker key := by
  rw [sent_updates, tally_append, collect_apply, sent_value]

theorem tally_recent_updates (worker : Fin peers) (key : Location × TInner) :
    tally (situation.recent_updates worker) key =
      (situation.cluster.workers worker).local_pointstamp.value key + situation.outstanding worker key :=
  tally_append _ _ _

theorem tally_all_updates (hreported : ∀ worker key, situation.cluster.reported worker key =
    situation.cluster.sent_value worker key +
      (situation.cluster.workers worker).local_pointstamp.value key)
    (worker : Fin peers) (key : Location × TInner) :
    tally (situation.all_updates granted worker) key =
      collect granted key + situation.done worker key := by
  rw [Situation.all_updates, tally_append, tally_sent_updates, tally_recent_updates, Situation.done, hreported]
  ring

/-- What is not written down does not count. -/
theorem exists_written {updates : List ((Location × TInner) × ℤ)} {key : Location × TInner}
    (h : tally updates key ≠ 0) : ∃ change ∈ updates, change.1 = key :=
  exists_mem_of_tally_ne_zero h

/-- What is underpinned is supported by what has been held. -/
theorem Underpinned.supported {worker : Fin peers} {updates : List ((Location × TInner) × ℤ)}
    (h : Underpinned topology (cluster.sent_updates granted worker) updates) :
    Supported topology.Precedes (cluster.held_before (collect granted) worker) (tally updates) := by
  intro key hpos
  obtain ⟨change, hchange, rfl⟩ := exists_written (ne_of_gt hpos)
  have hheld : ∀ {lower : Location × TInner}, capability lower →
      0 < tally (cluster.sent_updates granted worker) lower →
        0 < cluster.held_before (collect granted) worker lower := by
    intro lower hcapability hlower
    rw [held_before, if_pos hcapability, ← tally_sent_updates]
    exact hlower
  rcases h change hchange hpos with
    ⟨lower, -, hneg, hleads⟩ | ⟨lower, -, hcapability, hlower, heq | hleads⟩
  · exact Or.inl ⟨lower.1, hleads.precedes, hneg⟩
  · rw [← heq]
    exact Or.inr (Or.inr (hheld hcapability hlower))
  · exact Or.inr (Or.inl ⟨lower.1, hleads.precedes, hheld hcapability hlower⟩)

theorem Passed.disciplined (h : Passed topology granted situation)
    (hreported : ∀ worker key, situation.cluster.reported worker key =
      situation.cluster.sent_value worker key +
        (situation.cluster.workers worker).local_pointstamp.value key) :
    Disciplined topology (collect granted) situation := by
  obtain ⟨hsupported, hperformed, hholds, hexist⟩ := h
  refine ⟨fun worker => (hsupported worker).supported, fun worker => ?_, fun worker key => ?_, fun key => ?_⟩
  · have hrecent := (hperformed worker).supported
    rwa [funext (tally_recent_updates worker)] at hrecent
  · rw [Situation.held]
    split
    case isTrue hcapability =>
      rw [← tally_all_updates hreported]
      by_contra hneg
      obtain ⟨change, hchange, rfl⟩ := exists_written (not_le.mp hneg).ne
      exact hneg (hholds worker change hchange hcapability)
    case isFalse => exact le_rfl
  · have hsum : situation.existing (collect granted) key =
        ∑ worker, tally (situation.all_updates granted worker) key :=
      Finset.sum_congr rfl fun worker _ => (tally_all_updates hreported worker key).symm
    rw [hsum]
    by_contra hneg
    obtain ⟨worker, _, hne⟩ := Finset.exists_ne_zero_of_sum_ne_zero (not_le.mp hneg).ne
    obtain ⟨change, hchange, rfl⟩ := exists_written hne
    exact hneg (hexist worker change hchange)

end Test

/-! ### Runs -/

section Start

variable [PartialOrder S] [DecidableLE S] [Operate O TInner] {topology : Builder S}
  {granted : Location × TInner →₀ ℤ}

/-- A move to a disciplined situation. -/
def DisciplinedStep (topology : Builder S) (granted : Location × TInner →₀ ℤ)
    (before : Situation peers O S TOuter TInner) (move : Move peers TOuter TInner)
    (after : Situation peers O S TOuter TInner) : Prop :=
  before.Moves move after ∧ Disciplined topology granted after

/-- A step between situations in which everything is reported. -/
theorem disciplinedStep_settled {before after : Cluster peers O S TOuter TInner}
    {event : Event peers TOuter TInner} (hstep : Step before event after)
    (hdisciplined : Disciplined topology granted (Situation.settled after)) :
    DisciplinedStep topology granted (Situation.settled before) (.event event) (Situation.settled after) := by
  have hmoves : (Situation.settled before).Moves (.event event) _ := .event hstep
  rw [Situation.follow_settled] at hmoves
  exact ⟨hmoves, hdisciplined⟩

/-- Where workers report in the steps in which they do something, nothing is ever left to report. -/
theorem settled_of_run {first : Cluster peers O S TOuter TInner} {last : Situation peers O S TOuter TInner}
    {events : List (Event peers TOuter TInner)}
    (hrun : Run (DisciplinedStep topology granted) (Situation.settled first) (events.map Move.event) last) :
    last = Situation.settled last.cluster ∧ Run (fun before event after => Step before event after ∧
      Disciplined topology granted (Situation.settled after)) first events last.cluster := by
  induction events using List.reverseRecOn generalizing last with
  | nil =>
    obtain rfl := hrun.eq_of_nil
    exact ⟨rfl, Run.nil⟩
  | append_singleton events event ih =>
    rw [List.map_append] at hrun
    obtain ⟨middle, hbefore, hmoves, hdisciplined⟩ := hrun.of_snoc
    obtain ⟨hsettled, hsteps⟩ := ih hbefore
    cases hmoves with
    | @event _ after hstep =>
      have hfollow : middle.follow event after = Situation.settled after := by
        rw [hsettled]
        exact Situation.follow_settled _ _ event
      rw [hfollow] at hdisciplined ⊢
      exact ⟨rfl, hsteps.snoc ⟨hstep, hdisciplined⟩⟩

/-- All workers have initialized their subgraphs, and nothing has been done. -/
def begin_with (starts : Fin peers → Subgraph O S TOuter TInner) : Situation peers O S TOuter TInner :=
  Situation.settled (start starts)

/-- Workers with the same graph, in a scope that has no inputs and outputs.  Each one has
    initialized it, and counts for every worker what this worker was granted. -/
structure Started (topology : Builder S) (granted : Location × TInner →₀ ℤ)
    (builders : Fin peers → SubgraphBuilder O S TOuter TInner)
    (starts : Fin peers → Subgraph O S TOuter TInner) : Prop where
  initialized : Initialized builders starts
  inputs : ∀ worker, (builders worker).input_messages = []
  outputs : ∀ worker, (builders worker).output_capabilities = []
  graph : ∀ worker, (starts worker).pointstamp_tracker.builder = topology
  grants : ∀ key, 0 ≤ granted key
  counts : ∀ worker key, (starts worker).count key = peers * granted key

variable {builders : Fin peers → SubgraphBuilder O S TOuter TInner}
  {starts : Fin peers → Subgraph O S TOuter TInner}

theorem Started.sum_granted (h : Started topology granted builders starts) (worker : Fin peers)
    (key : Location × TInner) :
    (starts worker).count key = ∑ _sender : Fin peers, granted key := by
  rw [h.counts, Finset.sum_const, Finset.card_univ, Fintype.card_fin, nsmul_eq_mul]

theorem Started.enclosed (h : Started topology granted builders starts) (worker : Fin peers) :
    (starts worker).Enclosed := by
  obtain ⟨built, iteration, eager, fuel, summary_fuel, hbuild, hlocal, hinit⟩ :=
    h.initialized.builds worker
  obtain ⟨assembled, hbuilt⟩ := SubgraphBuilder.built_of_build hbuild
  obtain ⟨hinputs, houtputs⟩ := SubgraphBuilder.ports_of_build hbuild
  rw [h.inputs] at hinputs
  rw [h.outputs] at houtputs
  exact Subgraph.enclosed_of_get_internal_summary hbuilt hinputs houtputs hinit

theorem Started.accounts (h : Started topology granted builders starts) :
    Accounts (fun _ => True) (fun _ => topology)
      (fun _ key => ∑ _sender : Fin peers, granted key) (start starts) := by
  have haccounts := h.initialized.accounts fun _ => True
  have htopology : (fun worker => (starts worker).pointstamp_tracker.builder) = fun _ => topology :=
    funext h.graph
  have hcounts : (fun worker => (starts worker).count)
      = fun _ key => ∑ _sender : Fin peers, granted key :=
    funext fun worker => funext fun key => h.sum_granted worker key
  rw [htopology, hcounts] at haccounts
  exact haccounts

/-- At the start nobody has done anything. -/
theorem Started.disciplined (h : Started topology granted builders starts) :
    Disciplined topology granted (begin_with starts) := by
  have hnothing : ∀ worker key, ((begin_with starts).cluster.workers worker).local_pointstamp.value key = 0 := by
    intro worker key
    have hreported := h.accounts.reported worker key
    have hsent : (start starts).sent_value worker key = 0 := rfl
    rw [hsent, zero_add] at hreported
    exact hreported.symm
  have hdone : ∀ worker key, (begin_with starts).done worker key = 0 := fun worker key =>
    Situation.done_settled worker key
  refine ⟨fun worker key hpos => ?_, fun worker key hpos => ?_, fun worker key => ?_, fun key => ?_⟩
  · exact absurd (hnothing worker key) hpos.ne'
  · dsimp only at hpos
    rw [hnothing, zero_add] at hpos
    exact absurd rfl hpos.ne'
  · rw [Situation.held, hdone]
    split
    · exact add_nonneg (h.grants key) le_rfl
    · exact le_rfl
  · refine Finset.sum_nonneg fun worker _ => ?_
    rw [hdone]
    exact add_nonneg (h.grants key) le_rfl

end Start

/-! ### Runs that are written down -/

section Examples

variable [PartialOrder S] [DecidableLE S] [Operate O TInner] {topology : Builder S}
  {granted : List ((Location × TInner) × ℤ)}

/-- Make a move that leads to a disciplined situation. -/
def perform_disciplined (fuel : ℕ) (topology : Builder S) (granted : List ((Location × TInner) × ℤ))
    (situation : Situation peers O S TOuter TInner) :
    Move peers TOuter TInner → Option (Situation peers O S TOuter TInner)
  | .perform worker node changes =>
    if Passed topology granted (situation.perform worker node changes) then
      some (situation.perform worker node changes)
    else none
  | .event event =>
    ((situation.cluster.perform fuel event).map (situation.follow event)).filter fun after =>
      decide (Passed topology granted after)

theorem moves_of_perform_disciplined {fuel : ℕ} {situation after : Situation peers O S TOuter TInner}
    {move : Move peers TOuter TInner}
    (h : perform_disciplined fuel topology granted situation move = some after) :
    situation.Moves move after ∧ Passed topology granted after := by
  cases move with
  | perform worker node changes =>
    obtain ⟨hpassed, hafter⟩ := Option.ite_none_right_eq_some.mp h
    cases hafter
    exact ⟨.perform worker node changes, hpassed⟩
  | event event =>
    obtain ⟨hafter, hpassed⟩ := Option.filter_eq_some_iff.mp h
    obtain ⟨cluster, hperform, rfl⟩ := Option.map_eq_some_iff.mp hafter
    exact ⟨.event (step_of_perform hperform), of_decide_eq_true hpassed⟩

/-- Moves keep the accounts. -/
theorem Accounts.moves {tracked : Fin peers → Builder S} {initial : Fin peers → Location × TInner → ℤ}
    {situation after : Situation peers O S TOuter TInner}
    (h : Accounts inner tracked initial situation.cluster) {move : Move peers TOuter TInner}
    (hmoves : situation.Moves move after) : Accounts inner tracked initial after.cluster := by
  cases hmoves with
  | perform worker node changes => exact h
  | event hstep => exact h.step hstep

/-- A run is continued by moves that are made from its last situation on. -/
theorem later_of_perform_disciplined {fuel : ℕ}
    {builders : Fin peers → SubgraphBuilder O S TOuter TInner}
    {starts : Fin peers → Subgraph O S TOuter TInner} (hinit : Initialized builders starts)
    {moves more : List (Move peers TOuter TInner)} {situation last : Situation peers O S TOuter TInner}
    (hrun : Run (DisciplinedStep topology (collect granted)) (begin_with starts) moves situation)
    (h : more.foldlM (perform_disciplined fuel topology granted) situation = some last) :
    Run (DisciplinedStep topology (collect granted)) situation more last := by
  have hbefore := hrun.invariant (P := fun _ state =>
    Accounts inner (fun worker => (starts worker).pointstamp_tracker.builder)
      (fun worker => (starts worker).count) state.cluster) (hinit.accounts inner)
      fun haccounts hstep => haccounts.moves hstep.1
  have hboth := (Run.of_foldlM h).invariant (P := fun more state =>
    Accounts inner (fun worker => (starts worker).pointstamp_tracker.builder)
      (fun worker => (starts worker).count) state.cluster ∧
      Run (DisciplinedStep topology (collect granted)) situation more state) ⟨hbefore, Run.nil⟩ ?_
  · exact hboth.2
  · rintro more before move after ⟨haccounts, hmore⟩ hperform
    obtain ⟨hmoves, hpassed⟩ := moves_of_perform_disciplined hperform
    have hcounted := haccounts.moves hmoves
    exact ⟨hcounted, hmore.snoc ⟨hmoves, hpassed.disciplined hcounted.reported⟩⟩

theorem run_of_perform_disciplined {fuel : ℕ}
    {builders : Fin peers → SubgraphBuilder O S TOuter TInner}
    {starts : Fin peers → Subgraph O S TOuter TInner} (hinit : Initialized builders starts)
    {moves : List (Move peers TOuter TInner)} {last : Situation peers O S TOuter TInner}
    (h : moves.foldlM (perform_disciplined fuel topology granted) (begin_with starts) = some last) :
    Run (DisciplinedStep topology (collect granted)) (begin_with starts) moves last :=
  later_of_perform_disciplined hinit Run.nil h

/-- What the children of a scope express. -/
def expressed (built : Subgraph O S TOuter TInner) : Option (List ((Location × TInner) × ℤ)) :=
  ((List.range built.children.length).foldlM Subgraph.express_child built).map fun expressed =>
    expressed.final_pointstamp.updates

/-- A scope with nothing around it counts what its children express. -/
theorem count_of_expressed {graph : Builder S} {built first : Subgraph O S TOuter TInner}
    (hbuilt : SubgraphBuilder.Built graph built) (hinputs : built.inputs = 0)
    (houtputs : built.outputs = 0) {fuel : ℕ} (h : built.get_internal_summary fuel = some first)
    {updates : List ((Location × TInner) × ℤ)} (hexpressed : expressed built = some updates)
    (key : Location × TInner) : first.count key = tally updates key := by
  obtain ⟨middle, hmiddle, hpropagate⟩ := Option.bind_eq_some_iff.mp h
  obtain ⟨hrest, _, _, hshared, htracker⟩ := Subgraph.atRest_of_express hbuilt hmiddle
  obtain ⟨hfrontiers, hconsumeds, hproduceds, hbuffered⟩ :=
    Subgraph.enclosed_of_built hbuilt hinputs houtputs
  rw [← hshared] at hfrontiers hconsumeds hproduceds
  rw [← htracker] at hbuffered
  have henclosed : middle.Enclosed := ⟨hfrontiers, hconsumeds, hproduceds, hbuffered⟩
  have hcount := (henclosed.propagates hrest ⟨fuel, hpropagate⟩).2 key
  have hnothing : middle.count key = 0 := by
    unfold Subgraph.count
    rw [htracker, hbuilt.allocated.fresh.pointstamps, MutableAntichain.count_for_eq_tally]
    rfl
  obtain rfl : middle.final_pointstamp.updates = updates := by
    rw [expressed, hmiddle] at hexpressed
    exact Option.some.inj hexpressed
  rw [hcount, Subgraph.known, hnothing, zero_add]
  rfl

theorem tally_map_mul (factor : ℤ) (updates : List ((Location × TInner) × ℤ))
    (key : Location × TInner) :
    tally (updates.map fun update => (update.1, factor * update.2)) key = factor * tally updates key := by
  induction updates with
  | nil => rw [List.map_nil, tally_nil, mul_zero]
  | cons update updates ih => rw [List.map_cons, tally_cons, tally_cons, ih, mul_add, mul_ite, mul_zero]

/-- Workers that have built the same graph, whose children express for each worker what it is granted. -/
theorem Started.of_expressed {builders : Fin peers → SubgraphBuilder O S TOuter TInner}
    {built starts : Fin peers → Subgraph O S TOuter TInner} {eager : Bool} {fuel : ℕ}
    (hbuild : ∀ worker, (builders worker).build IterationOrder.listed eager fuel = some (built worker))
    (hlocal : ∀ worker, ∀ child ∈ (built worker).children.tail, child.is_local = true)
    (hinit : ∀ worker, (built worker).get_internal_summary fuel = some (starts worker))
    (hinputs : ∀ worker, (builders worker).input_messages = [])
    (houtputs : ∀ worker, (builders worker).output_capabilities = [])
    (hgraph : ∀ worker, (starts worker).pointstamp_tracker.builder = topology)
    (hgrants : ∀ grant ∈ granted, 0 ≤ grant.2)
    (hexpressed : ∀ worker, expressed (built worker) =
      some (granted.map fun grant => (grant.1, (peers : ℤ) * grant.2))) :
    Started topology (collect granted) builders starts := by
  refine ⟨⟨fun worker => ⟨built worker, IterationOrder.listed, eager, fuel, fuel, hbuild worker,
    Subgraph.allLocal_of_tail (hlocal worker), hinit worker⟩⟩, hinputs, houtputs, hgraph,
    fun key => ?_, fun worker key => ?_⟩
  · rw [collect_apply]
    exact tally_nonneg hgrants key
  · obtain ⟨graph, hbuilt⟩ := SubgraphBuilder.built_of_build (hbuild worker)
    obtain ⟨hinput, houtput⟩ := SubgraphBuilder.ports_of_build (hbuild worker)
    rw [hinputs] at hinput
    rw [houtputs] at houtput
    rw [count_of_expressed hbuilt hinput houtput (hinit worker) (hexpressed worker), tally_map_mul,
      collect_apply]

end Examples

end Cluster

end Timely
