/-
  Timely/Network/Routes.lean
  ==========================
  **The pusher for a worker leads to the puller of this worker**
  (`TcpAllocator::allocate`).

  The loop over all workers takes the pushers of the inner allocator where it comes
  to its own process; before and behind it skips this process when it chooses a
  queue.  So the pusher in a position is the one for the worker with this number,
  and what two workers of one process share concerns only this process.
-/
import Timely.Library.Run
import Timely.Network.Wiring

set_option linter.unusedSectionVars false

namespace Timely.Network

open Library

namespace Wiring

variable {cluster : Cluster} {process : ℕ}

/-! ### The pushers of a channel -/

theorem slot_lt {own other processes : ℕ} (hother : other < processes) (hown : own < processes)
    (hne : other ≠ own) : Cluster.slot own other < processes - 1 := by
  unfold Cluster.slot
  split_ifs <;> omega

theorem process_lt {index : ℕ} (h : index < cluster.peers) :
    cluster.process index < cluster.processes :=
  Nat.div_lt_of_lt_mul h

theorem mul_threads_add (cluster : Cluster) (process thread : ℕ) :
    process * cluster.threads + thread = cluster.worker_offset process + thread := by
  rw [Cluster.worker_offset, Nat.mul_comm]

/-- The number of a worker in its process. -/
theorem sub_lt_threads {index : ℕ} (h : cluster.process index = process) :
    index - cluster.worker_offset process < cluster.threads := by
  have := Cluster.process_eq_iff.mp h
  omega

/-- The pusher for a worker, where the inner channels have the numbers from `base` on. -/
def pusher_for (cluster : Cluster) (base : ℕ) (identifier : UInt64) (index target_index : ℕ) :
    TcpPusher :=
  let process := cluster.process index
  let place := target_index - cluster.worker_offset process
  if cluster.process target_index = process then .inner ⟨base + place, identifier, 0 + place, place⟩
  else .bytes ⟨identifier, UInt64.ofNat index, UInt64.ofNat target_index, 0, 0⟩
    (.outbound process (cluster.process target_index) (index - cluster.worker_offset process))

/-- The ends of a channel for a worker. -/
def channel_for (cluster : Cluster) (base : ℕ) (identifier : UInt64) (index : ℕ) :
    List TcpPusher × TcpPuller :=
  ((List.range cluster.peers).map (pusher_for cluster base identifier index),
    ⟨⟨base + (index - cluster.worker_offset (cluster.process index)), identifier⟩, identifier⟩)

section Pushers

variable {thread : ℕ} {identifier : UInt64}

/-- The turn for a worker, when the inner pushers for the workers before it are taken. -/
theorem push_for_eq (hprocess : process < cluster.processes) (hthread : thread < cluster.threads)
    (base : ℕ) (pushes : List TcpPusher) {target_index : ℕ} (htarget : target_index < cluster.peers) :
    (tcp_worker cluster.threads cluster.processes process thread).push_for identifier
        ((ends_for cluster.threads 0 base thread identifier).1.drop
          (target_index - cluster.worker_offset process), pushes) target_index
      = some ((ends_for cluster.threads 0 base thread identifier).1.drop
          (target_index + 1 - cluster.worker_offset process),
        pushes ++ [pusher_for cluster base identifier (cluster.worker_offset process + thread)
          target_index]) := by
  have hown := Cluster.process_offset_add process hthread
  have hplace : cluster.worker_offset process + thread - cluster.worker_offset process = thread :=
    Nat.add_sub_cancel_left _ _
  have hlength : (ends_for cluster.threads 0 base thread identifier).1.length = cluster.threads := by
    simp [ends_for]
  have hdiv : ∀ index, index / cluster.threads = cluster.process index := fun _ => rfl
  rw [TcpWorker.push_for, pusher_for]
  simp only [tcp_worker, worker, hdiv, mul_threads_add, hown, hplace]
  by_cases hsame : cluster.process target_index = process
  · -- the next one of the inner pushers
    have hlt := sub_lt_threads hsame
    have hsucc : target_index + 1 - cluster.worker_offset process
        = target_index - cluster.worker_offset process + 1 := by
      have := (Cluster.process_eq_iff.mp hsame).1
      omega
    rw [if_pos hsame, if_pos hsame, hsucc, List.drop_eq_getElem_cons (by omega)]
    simp [ends_for]
  · have hremote := process_lt htarget
    have hkept : (ends_for cluster.threads 0 base thread identifier).1.drop
        (target_index - cluster.worker_offset process)
        = (ends_for cluster.threads 0 base thread identifier).1.drop
          (target_index + 1 - cluster.worker_offset process) := by
      by_cases hbefore : target_index < cluster.worker_offset process
      · rw [Nat.sub_eq_zero_of_le (Nat.le_of_lt hbefore), Nat.sub_eq_zero_of_le hbefore]
      · have hfar : cluster.worker_offset process + cluster.threads ≤ target_index := by
          by_contra hnear
          exact hsame (Cluster.process_eq_iff.mpr ⟨by omega, by omega⟩)
        rw [List.drop_eq_nil_of_le (by omega), List.drop_eq_nil_of_le (by omega)]
    rw [if_neg hsame, if_neg hsame, List.getElem?_map,
      List.getElem?_range (slot_lt hremote hprocess hsame), ← hkept]
    simp only [Option.map_some, Cluster.socket_slot hsame]

theorem foldlM_push_for (hprocess : process < cluster.processes) (hthread : thread < cluster.threads)
    (base : ℕ) {count : ℕ} (hcount : count ≤ cluster.peers) :
    (List.range count).foldlM
        ((tcp_worker cluster.threads cluster.processes process thread).push_for identifier)
        ((ends_for cluster.threads 0 base thread identifier).1, [])
      = some ((ends_for cluster.threads 0 base thread identifier).1.drop
          (count - cluster.worker_offset process),
        (List.range count).map (pusher_for cluster base identifier
          (cluster.worker_offset process + thread))) := by
  induction count with
  | zero => simp
  | succ count ih =>
    rw [List.range_succ, List.foldlM_append, ih (Nat.le_of_succ_le hcount), List.map_append]
    simp only [Option.bind_eq_bind, Option.bind_some, List.foldlM_cons, List.foldlM_nil,
      push_for_eq hprocess hthread base _ hcount]
    rfl

/-- A worker of the cluster by its number. -/
theorem worker_eq (index : ℕ) :
    (site cluster.threads cluster.processes (cluster.process index)).workers[index
        - cluster.worker_offset (cluster.process index)]?
      = some (tcp_worker cluster.threads cluster.processes (cluster.process index)
        (index - cluster.worker_offset (cluster.process index))) := by
  have hplace := @sub_lt_threads cluster (cluster.process index) index rfl
  rw [site, List.getElem?_map, List.getElem?_range hplace]
  rfl

/-- The ends that a worker gets are those of the inner channel and of the queues. -/
theorem allocate_eq {index : ℕ} (hindex : index < cluster.peers) {bound : Option UInt64}
    (hbound : ∀ b, bound = some b → b < identifier) {shared shared' : Shared} {base : ℕ}
    (hinner : (worker cluster.threads 0 (index - cluster.worker_offset (cluster.process index))).allocate
        shared identifier
      = some (ends_for cluster.threads 0 base
          (index - cluster.worker_offset (cluster.process index)) identifier, shared')) :
    (tcp_worker cluster.threads cluster.processes (cluster.process index)
        (index - cluster.worker_offset (cluster.process index))).allocate identifier bound shared
      = some (channel_for cluster base identifier index, some identifier, shared') := by
  have hplace := @sub_lt_threads cluster (cluster.process index) index rfl
  have hindex' : cluster.worker_offset (cluster.process index)
      + (index - cluster.worker_offset (cluster.process index)) = index := by
    have := (Cluster.process_eq_iff.mp (Eq.refl (cluster.process index))).1
    omega
  have hpushers := @foldlM_push_for cluster _ _ identifier (process_lt hindex) hplace base _
    (Nat.le_refl _)
  rw [hindex'] at hpushers
  have hfree : bound.all (· < identifier) = true := by
    cases bound with
    | none => rfl
    | some b => exact decide_eq_true (hbound b rfl)
  rw [TcpWorker.allocate, if_pos hfree]
  rw [Cluster.peers] at hpushers
  simp only [tcp_worker_inner, tcp_worker_peers, hinner, hpushers, Option.bind_eq_bind,
    Option.bind_some]
  rfl

end Pushers

/-! ### Who gets what is pushed -/

section Delivers

variable {base : ℕ} {identifier : UInt64} {index target_index : ℕ} {puller : TcpPuller}

/-- What a worker gets from the receive loop for another process. -/
theorem mem_recvs_iff {process slot index target : ℕ} {worker : TcpWorker}
    (hindex : cluster.process index = process)
    (hworker : (site cluster.threads cluster.processes (cluster.process target)).workers[target
      - cluster.worker_offset (cluster.process target)]? = some worker) :
    Queue.inbound (process * cluster.threads + (index - cluster.worker_offset process)) slot
      ∈ worker.recvs ↔ target = index ∧ slot < cluster.processes - 1 := by
  have hplace : ∀ i, cluster.worker_offset (cluster.process i)
      + (i - cluster.worker_offset (cluster.process i)) = i := by
    intro i
    have := (Cluster.process_eq_iff.mp (Eq.refl (cluster.process i))).1
    omega
  subst hindex
  rw [worker_eq] at hworker
  rw [← Option.some.inj hworker]
  simp only [tcp_worker, mul_threads_add, hplace, List.mem_map, List.mem_range,
    Queue.inbound.injEq]
  constructor
  · rintro ⟨slot, hslot, rfl, rfl⟩
    exact ⟨rfl, hslot⟩
  · rintro ⟨rfl, hslot⟩
    exact ⟨slot, hslot, rfl, rfl⟩

/-- A queue to a process leads to the worker that the header names. -/
theorem delivers_bytes (hindex : index < cluster.peers) (htarget : target_index < cluster.peers)
    (hremote : cluster.process target_index ≠ cluster.process index) {target : ℕ} :
    DeliversTo cluster (site cluster.threads cluster.processes) (cluster.process index) target puller
        (pusher_for cluster base identifier index target_index) ↔
      target = target_index ∧ puller.receiver = identifier := by
  have hoffset := (Cluster.process_eq_iff.mp (Eq.refl (cluster.process target_index))).1
  have hnat : (UInt64.ofNat target_index).toNat = target_index :=
    UInt64.toNat_ofNat_of_lt' (Nat.lt_of_lt_of_le htarget cluster.peers_le)
  rw [pusher_for, if_neg hremote]
  constructor
  · intro h
    cases h with
    | @bytes _ _ arrival remote sources targets worker hsend hqueue hrecv _ harrival hworker hmem
      hchannel =>
      rw [hnat] at harrival
      -- the send loop is the one to the process of the target
      obtain ⟨slot, -, hsend⟩ := List.mem_map.mp hsend
      obtain ⟨rfl, rfl⟩ := Prod.mk.inj hsend
      obtain ⟨thread, -, hqueue⟩ := List.mem_map.mp hqueue
      obtain ⟨-, hsocket, -⟩ := Queue.outbound.inj hqueue
      rw [hsocket] at hrecv harrival
      -- the receive loop there has the queues of its workers
      obtain ⟨slot', -, hrecv⟩ := List.mem_map.mp hrecv
      obtain ⟨-, rfl⟩ := Prod.mk.inj hrecv
      rw [List.getElem?_map, List.getElem?_range (sub_lt_threads rfl)] at harrival
      obtain rfl := Option.some.inj harrival
      exact ⟨((mem_recvs_iff rfl hworker).mp hmem).1, hchannel.symm⟩
  · rintro ⟨rfl, hreceiver⟩
    have hslot := slot_lt (process_lt htarget) (process_lt hindex) hremote
    have hslot' := slot_lt (process_lt hindex) (process_lt htarget) hremote.symm
    have hsend : (cluster.process target, (List.range cluster.threads).map
        (Queue.outbound (cluster.process index) (cluster.process target)))
        ∈ (site cluster.threads cluster.processes (cluster.process index)).send_loops := by
      refine List.mem_map.mpr ⟨_, List.mem_range.mpr hslot, ?_⟩
      rw [Cluster.socket_slot hremote]
    have hrecv : (cluster.process index, (List.range cluster.threads).map fun thread =>
        Queue.inbound (cluster.process target * cluster.threads + thread)
          (Cluster.slot (cluster.process target) (cluster.process index)))
        ∈ (site cluster.threads cluster.processes (cluster.process target)).recv_loops := by
      refine List.mem_map.mpr ⟨_, List.mem_range.mpr hslot', ?_⟩
      rw [Cluster.socket_slot hremote.symm]
    refine DeliversTo.bytes hsend ?_ hrecv ?_ ?_ (worker_eq target)
      ((mem_recvs_iff rfl (worker_eq target)).mpr ⟨rfl, hslot'⟩) hreceiver.symm
    · exact List.mem_map.mpr ⟨_, List.mem_range.mpr (sub_lt_threads rfl), rfl⟩
    · rw [hnat]
      exact hoffset
    · rw [hnat, List.getElem?_map, List.getElem?_range (sub_lt_threads rfl)]
      rfl

end Delivers

/-! ### Calls in any order -/

/-- The calls of the workers of a process, by their numbers there. -/
def local_calls (cluster : Cluster) (process : ℕ) (calls : List (ℕ × UInt64)) :
    List (ℕ × UInt64) :=
  (calls.filter fun call => cluster.process call.1 = process).map fun call =>
    (call.1 - cluster.worker_offset process, call.2)

theorem mem_local_calls {calls : List (ℕ × UInt64)} {index : ℕ} {identifier : UInt64}
    (h : cluster.process index = process) :
    (index - cluster.worker_offset process, identifier) ∈ local_calls cluster process calls ↔
      (index, identifier) ∈ calls := by
  simp only [local_calls, List.mem_map, List.mem_filter, decide_eq_true_eq, Prod.mk.injEq]
  constructor
  · rintro ⟨call, ⟨hmem, hprocess⟩, hplace, rfl⟩
    have hcall := Cluster.process_eq_iff.mp hprocess
    have hindex := Cluster.process_eq_iff.mp h
    obtain rfl : call.1 = index := by omega
    exact hmem
  · intro hmem
    exact ⟨(index, identifier), ⟨hmem, h⟩, rfl, rfl⟩

theorem local_calls_append (process : ℕ) (calls : List (ℕ × UInt64)) (call : ℕ × UInt64) :
    local_calls cluster process (calls ++ [call]) = local_calls cluster process calls
      ++ if cluster.process call.1 = process
        then [(call.1 - cluster.worker_offset process, call.2)] else [] := by
  rw [local_calls, local_calls, List.filter_append, List.map_append]
  by_cases hsame : cluster.process call.1 = process
  · simp [hsame]
  · simp [hsame]

/-- What holds between calls. -/
structure Allocated (cluster : Cluster) (done : List (ℕ × UInt64)) (base : ℕ → UInt64 → ℕ)
    (state : ClusterState) : Prop where
  workers : ∀ call ∈ done, call.1 < cluster.peers
  wired : ∀ process, Wired cluster.threads (local_calls cluster process done) (base process)
    (state.shared process)
  bounds : ∀ index bound, state.bounds index = some bound → (index, bound) ∈ done
  greatest : ∀ index identifier, (index, identifier) ∈ done →
    ∃ bound, state.bounds index = some bound ∧ identifier ≤ bound
  taken : ∀ index identifier, (index, identifier) ∈ done → state.taken (index, identifier)
    = some (channel_for cluster (base (cluster.process index) identifier) identifier index)
  others : ∀ call, call ∉ done → state.taken call = none

theorem allocated_nil (cluster : Cluster) (next : ℕ) (base : ℕ → UInt64 → ℕ) :
    Allocated cluster [] base ⟨fun _ => Shared.new next, fun _ => none, fun _ => none⟩ := by
  constructor
  · exact fun call hmem => absurd hmem List.not_mem_nil
  · exact fun process => wired_new cluster.threads next (base process)
  · intro index bound hbound
    cases hbound
  · exact fun index identifier hmem => absurd hmem List.not_mem_nil
  · exact fun index identifier hmem => absurd hmem List.not_mem_nil
  · exact fun call _ => rfl

section Calls

variable {done : List (ℕ × UInt64)} {base : ℕ → UInt64 → ℕ} {state : ClusterState} {index : ℕ}
  {identifier : UInt64}

theorem Allocated.call (h : Allocated cluster done base state) (hindex : index < cluster.peers)
    (hnew : ∀ earlier, (index, earlier) ∈ done → earlier < identifier) :
    ∃ base' state', call cluster (site cluster.threads cluster.processes) state (index, identifier)
        = some state' ∧ Allocated cluster (done ++ [(index, identifier)]) base' state' := by
  have hfresh : (index, identifier) ∉ done := fun hmem => UInt64.lt_irrefl _ (hnew identifier hmem)
  obtain ⟨base', shared', hinner, hwired, hkept⟩ := @Wired.allocate cluster.threads 0 _ _ _ _
    identifier (h.wired (cluster.process index)) (sub_lt_threads rfl)
    (fun hmem => hfresh ((mem_local_calls rfl).mp hmem))
  have hallocate := allocate_eq hindex
    (fun bound hbound => hnew bound (h.bounds index bound hbound)) hinner
  refine ⟨Function.update base (cluster.process index) base',
    ⟨Function.update state.shared (cluster.process index) shared',
      Function.update state.bounds index (some identifier), Function.update state.taken
        (index, identifier) (some (channel_for cluster (base' identifier) identifier index))⟩, ?_, ?_⟩
  · rw [Wiring.call]
    simp only [worker_eq, hallocate, Option.bind_eq_bind, Option.bind_some]
    rfl
  constructor
  · intro call hmem
    rcases List.mem_append.mp hmem with hmem | hmem
    · exact h.workers call hmem
    · rw [List.mem_singleton.mp hmem]
      exact hindex
  · intro process
    rw [local_calls_append]
    by_cases hsame : cluster.process index = process
    · subst hsame
      rw [if_pos rfl, Function.update_self]
      simpa using hwired
    · rw [if_neg hsame, List.append_nil, Function.update_of_ne (Ne.symm hsame)]
      simpa [Function.update_of_ne (Ne.symm hsame)] using h.wired process
  · intro other bound hbound
    by_cases hsame : other = index
    · subst hsame
      have hself : some identifier = some bound := by simpa using hbound
      rw [Option.some.inj hself]
      exact List.mem_append_right _ (List.mem_singleton_self _)
    · have hother : state.bounds other = some bound := by
        simpa [Function.update_of_ne hsame] using hbound
      exact List.mem_append_left _ (h.bounds other bound hother)
  · intro other earlier hmem
    by_cases hsame : other = index
    · subst hsame
      refine ⟨identifier, Function.update_self _ _ _, ?_⟩
      rcases List.mem_append.mp hmem with hmem | hmem
      · exact UInt64.le_of_lt (hnew earlier hmem)
      · rw [(Prod.mk.inj (List.mem_singleton.mp hmem)).2]
        exact UInt64.le_refl _
    · have hmem' : (other, earlier) ∈ done := by simpa [hsame] using hmem
      obtain ⟨bound, hbound, hle⟩ := h.greatest other earlier hmem'
      exact ⟨bound, (Function.update_of_ne hsame _ _).trans hbound, hle⟩
  · intro other identifier' hmem
    by_cases hsame : (other, identifier') = (index, identifier)
    · obtain ⟨rfl, rfl⟩ := Prod.mk.inj hsame
      rw [Function.update_self]
      exact Function.update_self _ _ _
    · have hmem' : (other, identifier') ∈ done := by
        rcases List.mem_append.mp hmem with hmem | hmem
        · exact hmem
        · exact absurd (List.mem_singleton.mp hmem) hsame
      refine (Function.update_of_ne hsame _ _).trans ((h.taken other identifier' hmem').trans ?_)
      by_cases hprocess : cluster.process other = cluster.process index
      · rw [hprocess, Function.update_self, hkept _ _ ((mem_local_calls hprocess).mpr hmem')]
      · rw [Function.update_of_ne hprocess]
  · intro call hcall
    rw [List.mem_append, List.mem_singleton, not_or] at hcall
    exact (Function.update_of_ne hcall.2 _ _).trans (h.others call hcall.1)

theorem Allocated.run {calls : List (ℕ × UInt64)} (h : Allocated cluster done base state)
    (hcalls : (done ++ calls).Pairwise fun call later => call.1 = later.1 → call.2 < later.2)
    (hworkers : ∀ call ∈ calls, call.1 < cluster.peers) :
    ∃ base' state', calls.foldlM (Wiring.call cluster (site cluster.threads cluster.processes)) state
        = some state' ∧ Allocated cluster (done ++ calls) base' state' := by
  have hfold : ∃ state', calls.foldlM (Wiring.call cluster (site cluster.threads cluster.processes)) state
      = some state' ∧ ∃ base', Allocated cluster (done ++ calls) base' state' := by
    refine exists_foldlM_history (P := fun made after => ∃ base', Allocated cluster (done ++ made) base' after)
      ⟨base, by rwa [List.append_nil]⟩ ?_
    rintro before ⟨index, identifier⟩ made more rfl ⟨middle, hbefore⟩
    rw [← List.append_assoc] at hcalls
    have hnew : ∀ earlier, (index, earlier) ∈ done ++ made → earlier < identifier := fun earlier hmem =>
      (List.pairwise_append.mp hcalls).2.2 _ hmem _ List.mem_cons_self rfl
    obtain ⟨base', after, hcall, hafter⟩ := hbefore.call (hworkers (index, identifier) (by simp)) hnew
    exact ⟨after, hcall, base', by rwa [← List.append_assoc]⟩
  obtain ⟨state', hcalled, base', hlast⟩ := hfold
  exact ⟨base', state', hcalled, hlast⟩

/-- The pushers of a channel deliver to the pullers of the workers in turn, and to no others.
    Ends are taken once, and none are left when all workers have come. -/
structure Delivers (cluster : Cluster) (sites : ℕ → Site) (calls : List (ℕ × UInt64))
    (state : ClusterState) : Prop where
  ends : ∀ index identifier, (index, identifier) ∈ calls → ∃ pushers puller,
    state.taken (index, identifier) = some (pushers, puller) ∧ pushers.length = cluster.peers ∧
      ∀ k pusher, pushers[k]? = some pusher → ∀ index' identifier' pushers' puller',
        state.taken (index', identifier') = some (pushers', puller') →
        (DeliversTo cluster sites (cluster.process index) index' puller' pusher ↔
          index' = k ∧ identifier' = identifier)
  again : ∀ call ∈ calls, Wiring.call cluster sites state call = none
  removed : ∀ process identifier,
    (∀ index, cluster.process index = process → (index, identifier) ∈ calls) →
    (state.shared process).channels identifier = none

/-- A pusher of a worker delivers to the puller of the worker in its position. -/
theorem Allocated.delivers_iff (h : Allocated cluster done base state)
    (hmem : (index, identifier) ∈ done) {index' k : ℕ} {identifier' : UInt64}
    (hmem' : (index', identifier') ∈ done) (hk : k < cluster.peers) :
    DeliversTo cluster (site cluster.threads cluster.processes) (cluster.process index) index'
        (channel_for cluster (base (cluster.process index') identifier') identifier' index').2
        (pusher_for cluster (base (cluster.process index) identifier) identifier index k) ↔
      index' = k ∧ identifier' = identifier := by
  by_cases hremote : cluster.process k = cluster.process index
  · rw [pusher_for, if_pos hremote]
    -- the inner channels of one process have different numbers
    have hinj : cluster.process index' = cluster.process index →
        (base (cluster.process index) identifier + (k - cluster.worker_offset (cluster.process index))
          = base (cluster.process index') identifier'
            + (index' - cluster.worker_offset (cluster.process index')) ↔
        index' - cluster.worker_offset (cluster.process index)
          = k - cluster.worker_offset (cluster.process index) ∧ identifier' = identifier) := by
      intro hsame
      rw [hsame]
      exact (h.wired (cluster.process index)).inj ((mem_local_calls rfl).mpr hmem)
        ((mem_local_calls hsame).mpr hmem') (sub_lt_threads hremote) (sub_lt_threads hsame)
    constructor
    · intro hdelivers
      cases hdelivers with
      | inner hsame hpusher =>
        obtain ⟨hplace, hidentifier⟩ := (hinj hsame).mp hpusher
        have hk := (Cluster.process_eq_iff.mp hremote).1
        have hindex := (Cluster.process_eq_iff.mp hsame).1
        exact ⟨by omega, hidentifier⟩
    · rintro ⟨rfl, rfl⟩
      exact DeliversTo.inner hremote ((hinj hremote).mpr ⟨rfl, rfl⟩)
  · rw [delivers_bytes (h.workers _ hmem) hk hremote]
    rfl

theorem Allocated.delivers (h : Allocated cluster done base state) :
    Delivers cluster (site cluster.threads cluster.processes) done state := by
  refine ⟨fun index identifier hmem => ⟨_, _, h.taken index identifier hmem, by simp, ?_⟩,
    fun call hmem => ?_, fun process identifier hall => ?_⟩
  · intro k pusher hpusher index' identifier' pushers' puller' htaken
    obtain ⟨hk, rfl⟩ : k < cluster.peers ∧
        pusher_for cluster (base (cluster.process index) identifier) identifier index k = pusher := by
      rw [List.getElem?_map] at hpusher
      obtain ⟨k', hk', rfl⟩ := Option.map_eq_some_iff.mp hpusher
      obtain ⟨hrange, hsame⟩ := List.getElem?_eq_some_iff.mp hk'
      rw [List.getElem_range] at hsame
      subst hsame
      exact ⟨by simpa using hrange, rfl⟩
    by_cases hmem' : (index', identifier') ∈ done
    · rw [h.taken index' identifier' hmem'] at htaken
      obtain rfl := (Prod.mk.inj (Option.some.inj htaken)).2
      exact h.delivers_iff hmem hmem' hk
    · rw [h.others _ hmem'] at htaken
      cases htaken
  · obtain ⟨index, identifier⟩ := call
    obtain ⟨bound, hbound, hle⟩ := h.greatest index identifier hmem
    have hold : (some bound).all (· < identifier) = false :=
      decide_eq_false (UInt64.not_lt.mpr hle)
    rw [Wiring.call]
    simp only [worker_eq, TcpWorker.allocate, hbound, hold, Option.bind_eq_bind, Option.bind_some]
    rfl
  · have hwired := h.wired process
    have hlocal : ∀ place < cluster.threads,
        (place, identifier) ∈ local_calls cluster process done := by
      intro place hplace
      have hprocess := Cluster.process_offset_add process hplace
      have hmem := (mem_local_calls hprocess).mpr (hall _ hprocess)
      rwa [Nat.add_sub_cancel_left] at hmem
    exact hwired.whole identifier ⟨0, hlocal 0 cluster.threads_pos⟩ hlocal

end Calls

/-- In whatever order the threads of each process exchange their queues and the workers allocate
    their channels, the processes start, each worker gets its ends, and the pusher in a position
    delivers to the puller of the worker with this number. -/
theorem delivers (cluster : Cluster) {buzzers : ℕ → List (ℕ × ℕ)}
    {inbound outbound : ℕ → List (ℕ × Queue)} {calls : List (ℕ × UInt64)}
    (hexchanged : ∀ process < cluster.processes, Exchanged cluster.threads cluster.processes process
      (buzzers process) (inbound process) (outbound process))
    (hworkers : ∀ call ∈ calls, call.1 < cluster.peers)
    (hcalls : calls.Pairwise fun call later => call.1 = later.1 → call.2 < later.2) :
    ∃ sites state, (∀ process < cluster.processes,
        start cluster.threads cluster.processes process (buzzers process) (inbound process)
          (outbound process) = some (sites process)) ∧
      calls.foldlM (call cluster sites) ⟨fun _ => Shared.new
        (ProcessBuilder.new_vector cluster.threads 0).2, fun _ => none, fun _ => none⟩ = some state ∧
      Delivers cluster sites calls state := by
  obtain ⟨base, state, hrun, hlast⟩ := (allocated_nil cluster
    (ProcessBuilder.new_vector cluster.threads 0).2 fun _ _ => 0).run hcalls hworkers
  exact ⟨site cluster.threads cluster.processes, state,
    fun process hprocess => start_eq hprocess (hexchanged process hprocess), hrun, hlast.delivers⟩

/-- Channels lead to the right workers: those between the threads of a process, and those between
    all workers of some processes. -/
theorem channels_wired :
    (∀ (peers : ℕ) (buzzers : List (ℕ × ℕ)) (calls : List (ℕ × UInt64)),
      buzzers.Perm (ProcessBuilder.buzz (ProcessBuilder.new_vector peers 0).1) →
      (∀ call ∈ calls, call.1 < peers) → calls.Nodup →
      ∃ workers state,
        (ProcessBuilder.new_vector peers 0).1.mapM (ProcessBuilder.build · buzzers) = some workers ∧
        calls.foldlM (ProcessState.call workers)
          ⟨Shared.new (ProcessBuilder.new_vector peers 0).2, fun _ => none⟩ = some state ∧
        workers.length = peers ∧ ProcessState.Delivers workers calls state) ∧
    ∀ (cluster : Cluster) (buzzers : ℕ → List (ℕ × ℕ)) (inbound outbound : ℕ → List (ℕ × Queue))
      (calls : List (ℕ × UInt64)),
      (∀ process < cluster.processes, Exchanged cluster.threads cluster.processes process
        (buzzers process) (inbound process) (outbound process)) →
      (∀ call ∈ calls, call.1 < cluster.peers) →
      (calls.Pairwise fun call later => call.1 = later.1 → call.2 < later.2) →
      ∃ sites state, (∀ process < cluster.processes,
          start cluster.threads cluster.processes process (buzzers process) (inbound process)
            (outbound process) = some (sites process)) ∧
        calls.foldlM (call cluster sites) ⟨fun _ => Shared.new
          (ProcessBuilder.new_vector cluster.threads 0).2, fun _ => none, fun _ => none⟩ = some state ∧
        Delivers cluster sites calls state :=
  ⟨fun _ _ _ hbuzzers hworkers hcalls => ProcessState.delivers hbuzzers hworkers hcalls,
    fun cluster _ _ _ _ hexchanged hworkers hcalls =>
      delivers cluster hexchanged hworkers hcalls⟩

theorem channels_wired_example :
    (∃ workers state,
      (ProcessBuilder.new_vector 2 0).1.mapM (ProcessBuilder.build · [(5, 1), (4, 1), (3, 0), (2, 0)])
        = some workers ∧
      [(1, 7), (0, 7)].foldlM (ProcessState.call workers) ⟨Shared.new 6, fun _ => none⟩ = some state ∧
      workers.length = 2 ∧ ProcessState.Delivers workers [(1, 7), (0, 7)] state) ∧
    ∃ sites state, (∀ process < 2, start 2 2 process [(5, 1), (2, 0), (3, 0), (4, 1)]
        [(9, .inbound (process * 2 + 1) 0), (8, .inbound (process * 2) 0)]
        [(7, .outbound process (1 - process) 1), (6, .outbound process (1 - process) 0)]
          = some (sites process)) ∧
      [(3, 7), (0, 7), (1, 7), (2, 7)].foldlM
        (call ⟨2, 2, by decide, by decide⟩ sites) ⟨fun _ => Shared.new 6, fun _ => none, fun _ => none⟩
          = some state ∧
      Delivers ⟨2, 2, by decide, by decide⟩ sites [(3, 7), (0, 7), (1, 7), (2, 7)] state := by
  refine ⟨channels_wired.1 2 _ _ (by decide) (by decide) (by decide),
    channels_wired.2 ⟨2, 2, by decide, by decide⟩ (fun _ => [(5, 1), (2, 0), (3, 0), (4, 1)])
      (fun process => [(9, .inbound (process * 2 + 1) 0), (8, .inbound (process * 2) 0)])
      (fun process => [(7, .outbound process (1 - process) 1), (6, .outbound process (1 - process) 0)])
      _ (fun process hprocess => ?_) (by decide) (by decide)⟩
  have hcases : process = 0 ∨ process = 1 := by
    have : process < 2 := hprocess
    omega
  rcases hcases with rfl | rfl
  · exact ⟨by decide, by decide, by decide⟩
  · exact ⟨by decide, by decide, by decide⟩

end Wiring

end Timely.Network
