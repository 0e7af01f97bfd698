/-
  Timely/Cluster.lean
  ===================
  **The workers of a dataflow agree on the pointstamps**
  (`timely/src/progress/subgraph.rs`, `timely/src/progress/broadcast.rs`).

  Each worker schedules a subgraph of its own and sends its local updates to all
  workers.  Workers take their steps in any order, and messages arrive at any time.
  A worker knows of a pointstamp its initial count and the updates it has received,
  so that all workers know the same when nothing is under way.
-/
import Timely.Ledger
import Timely.Broadcast

set_option linter.unusedSectionVars false

namespace Timely

open Library

/-- The subgraph of each worker and the channels between them, and, for the record, the sum of the local
    updates of each worker. -/
structure Cluster (peers : ℕ) (O S TOuter TInner : Type) [Ord TOuter] [Ord TInner] where
  workers : Fin peers → Subgraph O S TOuter TInner
  broadcast : Broadcast peers TInner
  reported : Fin peers → Location × TInner → ℤ

namespace Cluster

variable {peers : ℕ} {O S TOuter TInner : Type}
  [PartialOrder TOuter] [DecidableLE TOuter] [DecidableEq TOuter] [Ord TOuter]
  [LinearExtension TOuter]
  [PartialOrder TInner] [DecidableLE TInner] [DecidableEq TInner] [Ord TInner]
  [LinearExtension TInner] [Refines TOuter TInner]

/-! ### Steps -/

/-- All workers have initialized their subgraphs, and nothing has been sent. -/
def start (workers : Fin peers → Subgraph O S TOuter TInner) : Cluster peers O S TOuter TInner where
  workers := workers
  broadcast := Broadcast.new
  reported _ _ := 0

/-- A worker has taken a step of its own; what this adds to its buffer is a local update. -/
def set_worker (cluster : Cluster peers O S TOuter TInner) (worker : Fin peers)
    (subgraph : Subgraph O S TOuter TInner) : Cluster peers O S TOuter TInner :=
  { cluster with
    workers := Function.update cluster.workers worker subgraph
    reported := Function.update cluster.reported worker fun key => cluster.reported worker key +
      (subgraph.local_pointstamp.value key - (cluster.workers worker).local_pointstamp.value key) }

/-- A worker sends its local progress updates, when it must. -/
def send_progress (cluster : Cluster peers O S TOuter TInner) (worker : Fin peers)
    (pushers : Fin peers → Option (ProgressMsg TInner)) : Option (Cluster peers O S TOuter TInner) :=
  (cluster.workers worker).must_send.map fun must_send =>
    if must_send then
      let sent := cluster.broadcast.send worker pushers (cluster.workers worker).local_pointstamp
      { cluster with
        workers := Function.update cluster.workers worker
          { cluster.workers worker with local_pointstamp := sent.2 }
        broadcast := sent.1 }
    else
      { cluster with
        workers := Function.update cluster.workers worker
          { cluster.workers worker with
            local_pointstamp := (cluster.workers worker).local_pointstamp.iter.2 } }

/-- A worker receives progress updates, from the given senders in turn. -/
def receive (cluster : Cluster peers O S TOuter TInner) (worker : Fin peers)
    (senders : List (Fin peers)) : Option (Cluster peers O S TOuter TInner) :=
  (cluster.broadcast.recv worker senders (cluster.workers worker).final_pointstamp).map fun received =>
    { cluster with
      workers := Function.update cluster.workers worker
        { cluster.workers worker with final_pointstamp := received.2 }
      broadcast := received.1 }

/-- What happens at the workers. -/
inductive Event (peers : ℕ) (TOuter TInner : Type) where
  | scope (worker : Fin peers) (event : ScopeEvent TOuter TInner)
  | send (worker : Fin peers) (pushers : Fin peers → Option (ProgressMsg TInner))
  | recv (worker : Fin peers) (senders : List (Fin peers))

variable [PathSummary S TInner] [Operate O TInner]

/-- The steps of the workers, in any order. -/
inductive Step : Cluster peers O S TOuter TInner → Event peers TOuter TInner →
    Cluster peers O S TOuter TInner → Prop
  | scope {cluster : Cluster peers O S TOuter TInner} {worker : Fin peers}
      {event : ScopeEvent TOuter TInner} {after : Subgraph O S TOuter TInner} :
      event.Scheduled → Subgraph.ScopeStep (cluster.workers worker) event after →
      Step cluster (.scope worker event) (cluster.set_worker worker after)
  | send {cluster after : Cluster peers O S TOuter TInner} {worker : Fin peers}
      {pushers : Fin peers → Option (ProgressMsg TInner)} :
      cluster.send_progress worker pushers = some after → Step cluster (.send worker pushers) after
  | recv {cluster after : Cluster peers O S TOuter TInner} {worker : Fin peers}
      {senders : List (Fin peers)} :
      cluster.receive worker senders = some after → Step cluster (.recv worker senders) after

/-! ### The invariant -/

/-- The sum of the batches that a worker has sent. -/
def sent_value (cluster : Cluster peers O S TOuter TInner) (worker : Fin peers)
    (key : Location × TInner) : ℤ :=
  tally (cluster.broadcast.sent worker).flatten key

/-- The sum of what a worker has received from one sender. -/
def received_value (cluster : Cluster peers O S TOuter TInner) (sender receiver : Fin peers)
    (key : Location × TInner) : ℤ :=
  tally ((cluster.broadcast.received sender receiver).flatMap ProgressMsg.changes) key

/-- Local updates have been sent, or wait to be sent; and of the tracked pointstamps each worker knows what
    it counted at first and what it has received. -/
structure Accounts (tracked : Location × TInner → Prop) (topology : Fin peers → Builder S)
    (initial : Fin peers → Location × TInner → ℤ) (cluster : Cluster peers O S TOuter TInner) :
    Prop where
  exact : cluster.broadcast.Exact
  atRest : ∀ worker, (cluster.workers worker).AtRest (topology worker)
  allLocal : ∀ worker, (cluster.workers worker).AllLocal
  reported : ∀ worker key, cluster.reported worker key =
    cluster.sent_value worker key + (cluster.workers worker).local_pointstamp.value key
  known : ∀ (worker : Fin peers) (key : Location × TInner), tracked key →
    (cluster.workers worker).known key =
      initial worker key + ∑ sender, cluster.received_value sender worker key

/-- The pointstamps of the children. -/
def inner (key : Location × TInner) : Prop := key.1.node ≠ 0

namespace Accounts

variable {tracked : Location × TInner → Prop} {topology : Fin peers → Builder S} {initial : Fin peers → Location × TInner → ℤ}
  {cluster after : Cluster peers O S TOuter TInner}

/-- A worker takes a step in which it receives nothing. -/
theorem set_worker (h : Accounts tracked topology initial cluster) {worker : Fin peers}
    {subgraph : Subgraph O S TOuter TInner} (hrest : subgraph.AtRest (topology worker))
    (hlocal : subgraph.AllLocal)
    (hknown : ∀ key, tracked key → subgraph.known key = (cluster.workers worker).known key) :
    Accounts tracked topology initial (cluster.set_worker worker subgraph) := by
  refine ⟨h.exact,
    (Function.forall_update_iff cluster.workers fun other scope => scope.AtRest (topology other)).mpr
      ⟨hrest, fun other _ => h.atRest other⟩,
    (Function.forall_update_iff cluster.workers fun _ scope => scope.AllLocal).mpr
      ⟨hlocal, fun other _ => h.allLocal other⟩, fun other key => ?_,
    (Function.forall_update_iff cluster.workers fun other scope =>
      ∀ key, tracked key → scope.known key =
        initial other key + ∑ sender, cluster.received_value sender other key).mpr
      ⟨fun key hkey => (hknown key hkey).trans (h.known worker key hkey),
        fun other _ => h.known other⟩⟩
  by_cases hother : other = worker
  · subst hother
    have hreported := h.reported other key
    have hafter : (cluster.set_worker other subgraph).reported other key =
        cluster.reported other key + (subgraph.local_pointstamp.value key -
          (cluster.workers other).local_pointstamp.value key) :=
      congrFun (Function.update_self other _ cluster.reported) key
    have hworker : (cluster.set_worker other subgraph).workers other = subgraph :=
      Function.update_self _ _ _
    rw [hworker, hafter, hreported]
    change _ = cluster.sent_value other key + _
    ring
  · have hafter : (cluster.set_worker worker subgraph).reported other = cluster.reported other :=
      Function.update_of_ne hother _ _
    have hworker : (cluster.set_worker worker subgraph).workers other = cluster.workers other :=
      Function.update_of_ne hother _ _
    rw [hworker, hafter]
    exact h.reported other key

/-- A worker whose buffer of local updates is replaced, by one with what has not been sent of it. -/
theorem with_local (h : Accounts tracked topology initial cluster) {worker : Fin peers}
    {broadcast : Broadcast peers TInner} {left : ChangeBatch (Location × TInner)}
    (hexact : broadcast.Exact) (hreceived : broadcast.received = cluster.broadcast.received)
    (hothers : ∀ other, other ≠ worker → broadcast.sent other = cluster.broadcast.sent other)
    (hsent : ∀ key, tally (broadcast.sent worker).flatten key + left.value key =
      cluster.sent_value worker key + (cluster.workers worker).local_pointstamp.value key) :
    Accounts tracked topology initial
      { cluster with
        workers := Function.update cluster.workers worker
          { cluster.workers worker with local_pointstamp := left }
        broadcast := broadcast } := by
  refine ⟨hexact, ?_, ?_, ?_, ?_⟩
  · exact (Function.forall_update_iff cluster.workers fun other scope => scope.AtRest (topology other)).mpr
      ⟨(h.atRest worker).of_tracker rfl, fun other _ => h.atRest other⟩
  · exact (Function.forall_update_iff cluster.workers fun _ scope => scope.AllLocal).mpr
      ⟨h.allLocal worker, fun other _ => h.allLocal other⟩
  · refine (Function.forall_update_iff cluster.workers fun other scope =>
      ∀ key, cluster.reported other key =
        tally (broadcast.sent other).flatten key + scope.local_pointstamp.value key).mpr
      ⟨fun key => (h.reported worker key).trans (hsent key).symm, fun other hother key => ?_⟩
    rw [hothers other hother]
    exact h.reported other key
  · refine (Function.forall_update_iff cluster.workers fun other scope =>
      ∀ key, tracked key → scope.known key = initial other key +
        ∑ sender, tally ((broadcast.received sender other).flatMap ProgressMsg.changes) key).mpr ?_
    rw [hreceived]
    exact ⟨h.known worker, fun other _ => h.known other⟩

theorem send (h : Accounts tracked topology initial cluster) {worker : Fin peers}
    {pushers : Fin peers → Option (ProgressMsg TInner)}
    (hsend : cluster.send_progress worker pushers = some after) :
    Accounts tracked topology initial after := by
  obtain ⟨must_send, _, hafter⟩ := Option.map_eq_some_iff.mp hsend
  cases must_send with
  | false =>
    rw [if_neg (by decide)] at hafter
    subst hafter
    refine h.with_local h.exact rfl (fun _ _ => rfl) fun key => ?_
    exact congrArg _ (ChangeBatch.value_compact _ key)
  | true =>
    rw [if_pos rfl] at hafter
    subst hafter
    refine h.with_local (h.exact.send _ _ _) rfl
      (fun other hother => Function.update_of_ne hother _ _) fun key => ?_
    have hvalue : ((cluster.broadcast.send worker pushers
        (cluster.workers worker).local_pointstamp).2).value key = 0 := by
      unfold ChangeBatch.value
      rw [Broadcast.send_empty, tally_nil]
    have hcompact := ChangeBatch.tally_compact (cluster.workers worker).local_pointstamp key
    unfold sent_value
    rw [hvalue, add_zero]
    rcases h.exact.send_cases worker pushers (cluster.workers worker).local_pointstamp with
      ⟨hempty, _, hrecord⟩ | ⟨_, _, hrecord⟩
    · rw [hempty, tally_nil] at hcompact
      rw [hrecord, ← hcompact, add_zero]
    · rw [hrecord, List.flatten_append, tally_append, List.flatten_singleton, hcompact]

theorem recv (h : Accounts tracked topology initial cluster) {worker : Fin peers}
    {senders : List (Fin peers)} (hrecv : cluster.receive worker senders = some after) :
    Accounts tracked topology initial after := by
  obtain ⟨⟨broadcast, final⟩, hreceived, rfl⟩ := Option.map_eq_some_iff.mp hrecv
  obtain ⟨messages, hpulled, _⟩ := Broadcast.recv_cases hreceived
  refine ⟨h.exact.pulled hpulled, ?_, ?_, ?_, ?_⟩
  · exact (Function.forall_update_iff cluster.workers fun other scope => scope.AtRest (topology other)).mpr
      ⟨(h.atRest worker).of_tracker rfl, fun other _ => h.atRest other⟩
  · exact (Function.forall_update_iff cluster.workers fun _ scope => scope.AllLocal).mpr
      ⟨h.allLocal worker, fun other _ => h.allLocal other⟩
  · refine (Function.forall_update_iff cluster.workers fun other scope =>
      ∀ key, cluster.reported other key =
        tally (broadcast.sent other).flatten key + scope.local_pointstamp.value key).mpr ?_
    rw [hpulled.sent]
    exact ⟨h.reported worker, fun other _ => h.reported other⟩
  · refine (Function.forall_update_iff cluster.workers fun other scope =>
      ∀ key, tracked key → scope.known key = initial other key +
        ∑ sender, tally ((broadcast.received sender other).flatMap ProgressMsg.changes) key).mpr
      ⟨fun key hkey => ?_, fun other hother key hkey => ?_⟩
    · have hknown := h.known worker key hkey
      have hvalue := Broadcast.value_recv hreceived key
      unfold Subgraph.known Subgraph.count received_value at *
      linarith
    · simp only [hpulled.others _ other hother]
      exact h.known other key hkey

theorem step (h : Accounts inner topology initial cluster) {event : Event peers TOuter TInner}
    (hstep : Step cluster event after) : Accounts inner topology initial after := by
  cases hstep with
  | @scope worker event subgraph hscheduled hscope =>
    obtain ⟨hrest, hknown⟩ := (h.atRest worker).step (h.allLocal worker) hscheduled hscope
    exact h.set_worker hrest (hscope.allLocal (h.allLocal worker)) fun key hnode => hknown key hnode
  | send hsend => exact h.send hsend
  | recv hrecv => exact h.recv hrecv

theorem run (h : Accounts inner topology initial cluster) {events : List (Event peers TOuter TInner)}
    (hrun : Run Step cluster events after) : Accounts inner topology initial after :=
  hrun.invariant (P := fun _ after => Accounts inner topology initial after) h
    fun hbefore hstep => hbefore.step hstep

end Accounts

/-! ### Agreement -/

section Agreement

variable [PartialOrder S] [DecidableLE S]

/-- The subgraphs of all workers, built and initialized. -/
structure Initialized (builders : Fin peers → SubgraphBuilder O S TOuter TInner)
    (starts : Fin peers → Subgraph O S TOuter TInner) : Prop where
  builds : ∀ worker, ∃ built iteration eager fuel summary_fuel,
    (builders worker).build iteration eager fuel = some built ∧ built.AllLocal ∧
      built.get_internal_summary summary_fuel = some (starts worker)

/-- The initial states have accounts, with what each tracker counts. -/
theorem Initialized.accounts {builders : Fin peers → SubgraphBuilder O S TOuter TInner}
    {starts : Fin peers → Subgraph O S TOuter TInner} (h : Initialized builders starts)
    (tracked : Location × TInner → Prop) :
    Accounts tracked (fun worker => (starts worker).pointstamp_tracker.builder)
      (fun worker => (starts worker).count) (start starts) := by
  have hworkers : ∀ worker, (starts worker).AtRest (starts worker).pointstamp_tracker.builder ∧
      (starts worker).final_pointstamp = ChangeBatch.new ∧
      (starts worker).local_pointstamp = ChangeBatch.new ∧ (starts worker).AllLocal := by
    intro worker
    obtain ⟨built, iteration, eager, fuel, summary_fuel, hbuild, hlocal, hinit⟩ := h.builds worker
    obtain ⟨topology, hbuilt⟩ := SubgraphBuilder.built_of_build hbuild
    obtain ⟨hrest, hfinal, hlocals, hafter⟩ := Subgraph.atRest_of_get_internal_summary hbuilt hinit
    rw [hrest.builder]
    exact ⟨hrest, hfinal, hlocals, hafter hlocal⟩
  refine ⟨Broadcast.exact_new, fun worker => (hworkers worker).1, fun worker => (hworkers worker).2.2.2,
    fun worker key => ?_, fun worker key _ => ?_⟩
  · change 0 = 0 + (starts worker).local_pointstamp.value key
    rw [(hworkers worker).2.2.1, ChangeBatch.value_new, add_zero]
  · have hnothing : ∑ sender, (start starts).received_value sender worker key = 0 :=
      Finset.sum_eq_zero fun _ _ => rfl
    rw [hnothing]
    change (starts worker).count key + (starts worker).final_pointstamp.value key = _
    rw [(hworkers worker).2.1, ChangeBatch.value_new]

/-- No batch is under way, and the buffers of all workers are drained. -/
structure Drained (cluster : Cluster peers O S TOuter TInner) : Prop where
  channels : ∀ sender receiver, cluster.broadcast.channels sender receiver = []
  locals : ∀ worker, (cluster.workers worker).local_pointstamp.updates = []
  final : ∀ worker, (cluster.workers worker).final_pointstamp.updates = []

/-- With nothing under way, each worker has received what the others have sent. -/
theorem Accounts.received_eq_sent {tracked : Location × TInner → Prop} {topology : Fin peers → Builder S}
    {initial : Fin peers → Location × TInner → ℤ} {cluster : Cluster peers O S TOuter TInner}
    (h : Accounts tracked topology initial cluster) {sender receiver : Fin peers}
    (hchannel : cluster.broadcast.channels sender receiver = []) (key : Location × TInner) :
    cluster.received_value sender receiver key = cluster.sent_value sender key := by
  have hdelivered := h.exact.delivered sender receiver
  rw [hchannel, List.append_nil] at hdelivered
  unfold received_value sent_value
  rw [hdelivered, List.flatMap_def, Broadcast.changes_numbered]

/-- When everything is drained, each worker counts what it has counted at first and the local updates of
    all workers. -/
theorem Accounts.count_of_drained {topology : Fin peers → Builder S}
    {initial : Fin peers → Location × TInner → ℤ} {cluster : Cluster peers O S TOuter TInner}
    (h : Accounts inner topology initial cluster) (hdrained : cluster.Drained) (worker : Fin peers)
    {key : Location × TInner} (hnode : key.1.node ≠ 0) :
    (cluster.workers worker).count key =
      initial worker key + ∑ sender, cluster.reported sender key := by
  have hknown := h.known worker key hnode
  have hfinal : (cluster.workers worker).final_pointstamp.value key = 0 := by
    unfold ChangeBatch.value
    rw [hdrained.final, tally_nil]
  have hreported : ∀ sender, cluster.received_value sender worker key =
      cluster.reported sender key := by
    intro sender
    have hlocal : (cluster.workers sender).local_pointstamp.value key = 0 := by
      unfold ChangeBatch.value
      rw [hdrained.locals, tally_nil]
    rw [h.received_eq_sent (hdrained.channels sender worker), h.reported, hlocal, add_zero]
  unfold Subgraph.known at hknown
  rw [hfinal, add_zero] at hknown
  rw [hknown]
  simp only [hreported]

/-- Every worker receives each batch that is sent once, in the order of its sender and as it was sent,
    and sending leaves no changes; so that, with nothing under way, the counts of each worker are the
    initial ones and the local updates of all workers. -/
theorem exactly_once_and_agreement :
    (∀ {events : List (Broadcast.Event peers TInner)} {broadcast : Broadcast peers TInner},
      Run Broadcast.Step Broadcast.new events broadcast →
      (∀ sender receiver, broadcast.received sender receiver ++ broadcast.channels sender receiver =
        Broadcast.numbered sender (Broadcast.batches events sender)) ∧
      (∀ worker changes, ∃ senders after left,
        broadcast.recv worker senders changes = some (after, left) ∧ ∀ sender,
          after.received sender worker =
            Broadcast.numbered sender (Broadcast.batches events sender)) ∧
      (∀ worker senders changes after left,
        broadcast.recv worker senders changes = some (after, left) → ∀ key,
          left.value key + ∑ sender,
              tally ((broadcast.received sender worker).flatMap ProgressMsg.changes) key =
            changes.value key + ∑ sender,
              tally ((after.received sender worker).flatMap ProgressMsg.changes) key) ∧
      ∀ worker pushers changes, (broadcast.send worker pushers changes).2.updates = []) ∧
    ∀ {builders : Fin peers → SubgraphBuilder O S TOuter TInner}
      {starts : Fin peers → Subgraph O S TOuter TInner}, Initialized builders starts →
      ∀ {events : List (Event peers TOuter TInner)} {last : Cluster peers O S TOuter TInner},
        Run Step (start starts) events last → last.Drained →
        (∀ (worker : Fin peers) (key : Location × TInner), key.1.node ≠ 0 →
          (last.workers worker).count key =
            (starts worker).count key + ∑ sender, last.reported sender key) ∧
        ((∀ worker other key, (starts worker).count key = (starts other).count key) →
          ∀ (worker other : Fin peers) (key : Location × TInner), key.1.node ≠ 0 →
            (last.workers worker).count key = (last.workers other).count key) := by
  constructor
  · intro events broadcast hrun
    have hexact := Broadcast.exact_new.run hrun
    have hsent := Broadcast.sent_eq_batches hrun
    refine ⟨fun sender receiver => ?_, fun worker changes => ?_,
      fun _ _ _ _ _ hrecv key => Broadcast.value_recv hrecv key,
      fun worker pushers changes => Broadcast.send_empty broadcast worker pushers changes⟩
    · rw [hexact.delivered, hsent]
    · obtain ⟨senders, after, left, hrecv, hreceived⟩ := hexact.exists_recv worker changes
      refine ⟨senders, after, left, hrecv, fun sender => ?_⟩
      rw [hreceived, hsent]
  · intro builders starts hinit events last hrun hdrained
    have haccounts := (hinit.accounts inner).run hrun
    have hcount : ∀ (worker : Fin peers) (key : Location × TInner), key.1.node ≠ 0 →
        (last.workers worker).count key =
          (starts worker).count key + ∑ sender, last.reported sender key :=
      fun worker key hnode => haccounts.count_of_drained hdrained worker hnode
    refine ⟨hcount, fun hsame worker other key hnode => ?_⟩
    rw [hcount worker key hnode, hcount other key hnode, hsame worker other key]

end Agreement

/-! ### An example -/

/-- What a scripted operator reports at one call. -/
structure Entry (T : Type) where
  consumeds : List (List (T × ℤ))
  internals : List (List (T × ℤ))
  produceds : List (List (T × ℤ))

/-- An operator that follows a script. -/
structure Script (T : Type) where
  entries : List (Entry T)

/-- Reads all frontier changes, and reports the next entry of its script. -/
instance {T : Type} [PartialOrder T] [DecidableLE T] [DecidableEq T] [Ord T] [LinearExtension T] :
    Operate (Script T) T where
  schedule script shared_progress :=
    match script.entries with
    | [] =>
      some (false, script,
        { shared_progress with frontiers := drained shared_progress.frontiers })
    | entry :: entries =>
      some (false, ⟨entries⟩,
        { shared_progress with
          frontiers := drained shared_progress.frontiers
          consumeds := shared_progress.consumeds.zipWith ChangeBatch.extend entry.consumeds
          internals := shared_progress.internals.zipWith ChangeBatch.extend entry.internals
          produceds := shared_progress.produceds.zipWith ChangeBatch.extend entry.produceds })
  set_external_summary script shared_progress := some (script, shared_progress)

/-- A child that follows a script, with the initial capabilities of its outputs. -/
def scripted_child {S T : Type} [PartialOrder T] [DecidableLE T] [DecidableEq T] [Ord T]
    [LinearExtension T] (index inputs : ℕ) (capabilities : List (List (T × ℤ)))
    (internal_summary : List (List (Antichain S))) (entries : List (Entry T)) :
    PerOperatorState (Script T) S T where
  index := index
  is_local := true
  notify := true
  inputs := inputs
  outputs := capabilities.length
  count_for_incomplete := true
  operator := some ⟨entries⟩
  edges := List.replicate capabilities.length []
  ghost_edges := List.replicate capabilities.length []
  shared_progress :=
    { SharedProgress.new inputs capabilities.length with
      internals := capabilities.map ChangeBatch.new.extend }
  internal_summary := internal_summary

/-- Perform one of the events that examples need. -/
def perform (fuel : ℕ) (cluster : Cluster peers O S TOuter TInner) :
    Event peers TOuter TInner → Option (Cluster peers O S TOuter TInner)
  | .scope worker .propagate_pointstamps =>
    ((cluster.workers worker).propagate_pointstamps fuel).map (cluster.set_worker worker)
  | .scope worker (.activate_child child_index) =>
    if child_index = 0 then none
    else
      ((cluster.workers worker).activate_child child_index).map fun activated =>
        cluster.set_worker worker activated.2
  | .scope _ _ => none
  | .send worker pushers => cluster.send_progress worker pushers
  | .recv worker senders => cluster.receive worker senders

theorem step_of_perform {fuel : ℕ} {cluster after : Cluster peers O S TOuter TInner}
    {event : Event peers TOuter TInner} (h : cluster.perform fuel event = some after) :
    Step cluster event after := by
  unfold perform at h
  split at h
  case h_1 worker =>
    obtain ⟨subgraph, hpropagate, rfl⟩ := Option.map_eq_some_iff.mp h
    exact Step.scope trivial (Subgraph.ScopeStep.propagate_pointstamps ⟨fuel, hpropagate⟩)
  case h_2 worker child_index =>
    split at h
    case isTrue => cases h
    case isFalse hindex =>
      obtain ⟨⟨flag, subgraph⟩, hactivate, rfl⟩ := Option.map_eq_some_iff.mp h
      exact Step.scope hindex (Subgraph.ScopeStep.activate_child hactivate)
  case h_3 => cases h
  case h_4 => exact Step.send h
  case h_5 => exact Step.recv h

theorem run_of_perform {fuel : ℕ} {first after : Cluster peers O S TOuter TInner}
    {events : List (Event peers TOuter TInner)}
    (h : events.foldlM (perform fuel) first = some after) : Run Step first events after :=
  (Run.of_foldlM h).mono step_of_perform

/-- A scope whose first child feeds the second one, at each of two workers. -/
def consumed_builder (entries consumer : List (Entry (Unsigned 64))) :
    SubgraphBuilder (Script (Unsigned 64)) (Unsigned 64) (Unsigned 64) (Unsigned 64) :=
  ((((((((SubgraphBuilder.new_from 1).add_child (scripted_child 1 0 [[(0, 2)]] [] entries)).add_child
    (scripted_child 2 1 [] [[]] consumer)).add_child (scripted_child 3 0 [] [] [])).add_child
    (scripted_child 4 0 [] [] [])).add_child (scripted_child 5 0 [] [] [])).add_child
    (scripted_child 6 0 [] [] [])).connect ⟨1, 0⟩ ⟨2, 0⟩)

/-- The operator without outputs does nothing. -/
def example_builder (entries : List (Entry (Unsigned 64))) :
    SubgraphBuilder (Script (Unsigned 64)) (Unsigned 64) (Unsigned 64) (Unsigned 64) :=
  consumed_builder entries []

/-- Worker zero sends a message under its first capability, which it downgrades. -/
def example_builders (worker : Fin 2) :
    SubgraphBuilder (Script (Unsigned 64)) (Unsigned 64) (Unsigned 64) (Unsigned 64) :=
  example_builder (if worker.val = 0 then [⟨[], [[(0, -1), (1, 1)]], [[(0, 1)]]⟩] else [])

def example_build (worker : Fin 2) :
    Option (Subgraph (Script (Unsigned 64)) (Unsigned 64) (Unsigned 64) (Unsigned 64)) :=
  (example_builders worker).build IterationOrder.listed true 20

theorem example_builds : ∀ worker, (example_build worker).isSome := by decide

def example_built (worker : Fin 2) :
    Subgraph (Script (Unsigned 64)) (Unsigned 64) (Unsigned 64) (Unsigned 64) :=
  (example_build worker).get (example_builds worker)

theorem example_initializes : ∀ worker, ((example_built worker).get_internal_summary 20).isSome := by
  decide

def example_starts (worker : Fin 2) :
    Subgraph (Script (Unsigned 64)) (Unsigned 64) (Unsigned 64) (Unsigned 64) :=
  ((example_built worker).get_internal_summary 20).get (example_initializes worker)

theorem example_initialized : Initialized example_builders example_starts := by
  refine ⟨fun worker => ⟨example_built worker, IterationOrder.listed, true, 20, 20,
    (Option.some_get (example_builds worker)).symm, Subgraph.allLocal_of_tail ?_,
    (Option.some_get (example_initializes worker)).symm⟩⟩
  revert worker
  decide

def example_events : List (Event 2 (Unsigned 64) (Unsigned 64)) :=
  [.scope ⟨0, Nat.zero_lt_two⟩ (.activate_child 1), .send ⟨0, Nat.zero_lt_two⟩ fun _ => none,
    .recv ⟨1, Nat.one_lt_two⟩ [⟨0, Nat.zero_lt_two⟩], .scope ⟨1, Nat.one_lt_two⟩ .propagate_pointstamps,
    .recv ⟨0, Nat.zero_lt_two⟩ [⟨0, Nat.zero_lt_two⟩], .scope ⟨0, Nat.zero_lt_two⟩ .propagate_pointstamps]

theorem example_performs :
    (example_events.foldlM (perform 20) (start example_starts)).isSome := by decide

/-- Both workers have received and propagated what worker zero has done. -/
def example_last : Cluster 2 (Script (Unsigned 64)) (Unsigned 64) (Unsigned 64) (Unsigned 64) :=
  (example_events.foldlM (perform 20) (start example_starts)).get example_performs

theorem example_run : Run Step (start example_starts) example_events example_last :=
  run_of_perform (Option.some_get example_performs).symm

theorem exactly_once_and_agreement_example :
    (example_last.workers 1).count (Location.new_target 2 0, 0) = 1 ∧
    ∀ (worker other : Fin 2) (key : Location × Unsigned 64), key.1.node ≠ 0 →
      (example_last.workers worker).count key = (example_last.workers other).count key := by
  have hdrained : example_last.Drained := ⟨by decide, by decide, by decide⟩
  refine ⟨by decide, (exactly_once_and_agreement.2 example_initialized example_run hdrained).2 ?_⟩
  intro worker other key
  -- the scripts differ, what the children express does not
  have hsame : ∀ worker, (example_starts worker).pointstamp_tracker =
      (example_starts 0).pointstamp_tracker :=
    Fin.forall_fin_two.mpr ⟨rfl, rfl⟩
  unfold Subgraph.count
  rw [hsame worker, hsame other]

end Cluster

end Timely
