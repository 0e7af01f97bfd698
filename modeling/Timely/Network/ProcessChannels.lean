/-
  Timely/Network/ProcessChannels.lean
  ===================================
  **Channels between the threads of a process** (`allocator/process.rs`).

  The first worker that allocates a channel makes all of its ends, for itself and
  for the others, and puts them into a shared map.  Each worker takes its own; the
  last one removes what is left.  In whatever order the workers come, each gets
  ends of the same channels, and the pusher for a worker leads to the puller of
  this worker.
-/
import Timely.Library.Run
import Timely.Network.Promises

set_option linter.unusedSectionVars false

namespace Timely.Network

open Library

/-! ### Workers -/

/-- An allocator for communication between threads of one process.  The channels over which
    events are counted have numbers, and a buzzer has the number of its thread. -/
structure Process where
  index : ℕ
  peers : ℕ
  buzzers : List ℕ
  counters_send : List ℕ
  counters_recv : ℕ

structure ProcessBuilder where
  index : ℕ
  peers : ℕ
  buzzers_send : List ℕ
  buzzers_recv : List ℕ
  counters_send : List ℕ
  counters_recv : ℕ

namespace ProcessBuilder

/-- A list of builders of connected allocators, for channels from the number `next` on. -/
def new_vector (peers next : ℕ) : List ProcessBuilder × ℕ :=
  let counters := (List.range peers).map (next + ·)
  let (buzzers_send, buzzers_recv, next) := promise_futures peers peers (next + peers)
  (((counters.zip buzzers_send).zip buzzers_recv).mapIdx fun index ((recv, bsend), brecv) =>
    { index, peers, buzzers_send := bsend, buzzers_recv := brecv, counters_send := counters,
      counters_recv := recv }, next)

/-- The buzzers that the workers send to each other: each sends its own. -/
def buzz (builders : List ProcessBuilder) : List (ℕ × ℕ) :=
  builders.flatMap fun builder => fulfil builder.buzzers_send fun _ => builder.index

/-- Builds the allocator, with the buzzers that it receives. -/
def build (builder : ProcessBuilder) (sent : List (ℕ × ℕ)) : Option Process :=
  (receive_all sent builder.buzzers_recv).map fun buzzers =>
    { index := builder.index, peers := builder.peers, buzzers,
      counters_send := builder.counters_send, counters_recv := builder.counters_recv }

end ProcessBuilder

/-! ### Channels -/

/-- The ends of a channel for one worker: the senders for all workers with their buzzers, and
    the receiver. -/
structure Ends where
  pushers : List (ℕ × ℕ)
  puller : ℕ

/-- What the workers share: the ends that were not taken yet, and the number of channels. -/
structure Shared where
  channels : UInt64 → Option (List (Option Ends))
  next : ℕ

def Shared.new (next : ℕ) : Shared := ⟨fun _ => none, next⟩

/-- A pusher, which counts what is pushed. -/
structure CountPusher where
  pusher : ℕ
  identifier : UInt64
  events : ℕ
  buzzer : ℕ

/-- A puller, which counts what is pulled. -/
structure CountPuller where
  puller : ℕ
  identifier : UInt64

namespace Process

variable (process : Process) (shared : Shared) (identifier : UInt64)

/-- Makes the ends of a channel for all workers. -/
def create (next : ℕ) : Option (List (Option Ends)) :=
  ((List.range process.peers).mapM fun index =>
    (process.buzzers[index]?).map fun buzzer => (next + index, buzzer)).map fun pushers =>
      (List.range process.peers).map fun index => some ⟨pushers, next + index⟩

/-- The entry of a channel, which the first worker to come makes. -/
def entry : Option (List (Option Ends) × ℕ) :=
  match shared.channels identifier with
  | some vector => some (vector, shared.next)
  | none => (process.create shared.next).map fun vector => (vector, shared.next + process.peers)

/-- Wraps the ends, with the counters of the workers. -/
def count (ends : Ends) : Option (List CountPusher × CountPuller) :=
  ((ends.pushers.mapIdx fun i pusher => (process.counters_send[i]?).map fun events =>
    (⟨pusher.1, identifier, events, pusher.2⟩ : CountPusher)).mapM id).map fun sends =>
      (sends, ⟨ends.puller, identifier⟩)

/-- Takes the ends of a channel for this worker; panics if they were taken before. -/
def allocate : Option ((List CountPusher × CountPuller) × Shared) := do
  let (vector, next) ← process.entry shared identifier
  let ends ← vector[process.index]?
  let ends ← ends
  let vector := vector.set process.index none
  let empty := vector.all Option.isNone
  let channels := Function.update shared.channels identifier
    (if empty then none else some vector)
  let ends ← process.count identifier ends
  return (ends, ⟨channels, next⟩)

end Process

/-! ### Who is built -/

/-- The worker with a number, whose counters are the channels from a number on. -/
def worker (peers counters index : ℕ) : Process :=
  ⟨index, peers, List.range peers, (List.range peers).map (counters + ·), counters + index⟩

@[simp] theorem worker_index (peers counters index : ℕ) :
    (worker peers counters index).index = index := rfl

namespace ProcessBuilder

variable {peers next : ℕ}

/-- The builder with a number, of channels from the number `next` on. -/
def builder (peers next index : ℕ) : ProcessBuilder where
  index := index
  peers := peers
  buzzers_send := (List.range peers).map (promise peers (next + peers) index)
  buzzers_recv := (List.range peers).map fun sender => promise peers (next + peers) sender index
  counters_send := (List.range peers).map (next + ·)
  counters_recv := next + index

theorem new_vector_eq (peers next : ℕ) :
    (new_vector peers next).1 = (List.range peers).map (builder peers next) := by
  simp only [new_vector, promise_futures_eq, List.zip_map', mapIdx_map_range]
  rfl

theorem buzz_new_vector (peers next : ℕ) : buzz (new_vector peers next).1
    = fulfil_all (promise_futures peers peers (next + peers)).1 fun sender _ => sender := by
  simp only [buzz, new_vector_eq, fulfil_all, promise_futures_eq, mapIdx_map_range,
    List.flatMap_def, List.map_map]
  rfl

/-- In whatever order buzzers are sent, each worker has the buzzer of every thread. -/
theorem build_builder {sent : List (ℕ × ℕ)} (hsent : sent.Perm (buzz (new_vector peers next).1))
    {index : ℕ} (hindex : index < peers) :
    (builder peers next index).build sent = some (worker peers next index) := by
  rw [buzz_new_vector] at hsent
  have hreceived := receive_all_promises hsent hindex
  rw [List.map_id'] at hreceived
  rw [build, builder, hreceived]
  rfl

theorem build_new_vector {sent : List (ℕ × ℕ)}
    (hsent : sent.Perm (buzz (new_vector peers next).1)) :
    (new_vector peers next).1.mapM (build · sent)
      = some ((List.range peers).map (worker peers next)) := by
  rw [new_vector_eq]
  exact mapM_map_some fun _ hindex => build_builder hsent (List.mem_range.mp hindex)

end ProcessBuilder

/-! ### Who has which ends -/

variable {peers counters : ℕ}

/-- The ends for a worker, of a channel whose senders have the numbers from `base` on. -/
def ends_from (peers base index : ℕ) : Ends :=
  ⟨(List.range peers).map fun i => (base + i, i), base + index⟩

/-- The same, as they are returned. -/
def ends_for (peers counters base index : ℕ) (identifier : UInt64) :
    List CountPusher × CountPuller :=
  ((List.range peers).map fun i => ⟨base + i, identifier, counters + i, i⟩,
    ⟨base + index, identifier⟩)

theorem create_worker (index next : ℕ) : (worker peers counters index).create next
    = some ((List.range peers).map fun i => some (ends_from peers next i)) := by
  have hpushers : (List.range peers).mapM (fun i =>
      ((worker peers counters index).buzzers[i]?).map fun buzzer => (next + i, buzzer))
      = some ((List.range peers).map fun i => (next + i, i)) := by
    refine mapM_some fun i hi => ?_
    rw [worker, List.getElem?_range (List.mem_range.mp hi)]
    rfl
  have hpeers : (worker peers counters index).peers = peers := rfl
  rw [Process.create, hpeers, hpushers]
  rfl

theorem count_ends (index base i : ℕ) (identifier : UInt64) :
    (worker peers counters index).count identifier (ends_from peers base i)
      = some (ends_for peers counters base i identifier) := by
  have hsends : (((List.range peers).map fun i => (base + i, i)).mapIdx fun i pusher =>
      ((worker peers counters index).counters_send[i]?).map fun events =>
        (⟨pusher.1, identifier, events, pusher.2⟩ : CountPusher)).mapM id
      = some ((List.range peers).map fun i => ⟨base + i, identifier, counters + i, i⟩) := by
    rw [mapIdx_map_range]
    refine mapM_map_some fun i hi => ?_
    rw [worker, List.getElem?_map, List.getElem?_range (List.mem_range.mp hi)]
    rfl
  rw [Process.count, ends_from, hsends]
  rfl

/-- The ends that are left when some workers have taken theirs. -/
def left (peers base : ℕ) (done : List (ℕ × UInt64)) (identifier : UInt64) : List (Option Ends) :=
  (List.range peers).map fun index =>
    if (index, identifier) ∈ done then none else some (ends_from peers base index)

/-- The shared map when some workers have allocated some channels.  A channel that was allocated
    has senders from a number on, other ones than other channels. -/
structure Wired (peers : ℕ) (done : List (ℕ × UInt64)) (base : UInt64 → ℕ) (shared : Shared) :
    Prop where
  workers : ∀ call ∈ done, call.1 < peers
  untouched : ∀ identifier, (∀ index, (index, identifier) ∉ done) →
    shared.channels identifier = none
  partly : ∀ identifier, (∃ index, (index, identifier) ∈ done) →
    (∃ index < peers, (index, identifier) ∉ done) →
    shared.channels identifier = some (left peers (base identifier) done identifier)
  whole : ∀ identifier, (∃ index, (index, identifier) ∈ done) →
    (∀ index < peers, (index, identifier) ∈ done) → shared.channels identifier = none
  below : ∀ index identifier, (index, identifier) ∈ done → base identifier + peers ≤ shared.next
  apart : ∀ {index index' identifier identifier'}, (index, identifier) ∈ done →
    (index', identifier') ∈ done → identifier ≠ identifier' →
    base identifier + peers ≤ base identifier' ∨ base identifier' + peers ≤ base identifier

theorem wired_new (peers next : ℕ) (base : UInt64 → ℕ) : Wired peers [] base (Shared.new next) := by
  constructor <;> simp [Shared.new]

theorem set_map_range {α : Type} (f : ℕ → α) (count index : ℕ) (a : α) :
    ((List.range count).map f).set index a = (List.range count).map (Function.update f index a) := by
  refine List.ext_getElem (by simp) fun i hi hi' => ?_
  simp only [List.getElem_set, List.getElem_map, List.getElem_range]
  by_cases hsame : index = i
  · rw [if_pos hsame, hsame, Function.update_self]
  · rw [if_neg hsame, Function.update_of_ne (Ne.symm hsame)]

section Allocate

variable {done : List (ℕ × UInt64)} {base : UInt64 → ℕ} {shared : Shared} {index : ℕ}
  {identifier : UInt64}

/-- The entry has the ends of those that have not come; the first one to come makes it. -/
theorem Wired.entry (h : Wired peers done base shared) (hindex : index < peers)
    (hnew : (index, identifier) ∉ done) :
    ∃ (base' : UInt64 → ℕ) (next' : ℕ), (worker peers counters index).entry shared identifier
        = some (left peers (base' identifier) done identifier, next') ∧
      (∀ i other, (i, other) ∈ done → base' other = base other) ∧ shared.next ≤ next' ∧
      base' identifier + peers ≤ next' ∧
      ∀ i other, (i, other) ∈ done → other ≠ identifier →
        base' identifier + peers ≤ base' other ∨ base' other + peers ≤ base' identifier := by
  by_cases htouched : ∃ i, (i, identifier) ∈ done
  · -- somebody has come before
    obtain ⟨i, hi⟩ := htouched
    refine ⟨base, shared.next, ?_, fun _ _ _ => rfl, Nat.le_refl _, h.below i identifier hi,
      fun i' other hother hne => h.apart hi hother hne.symm⟩
    rw [Process.entry, h.partly identifier ⟨i, hi⟩ ⟨index, hindex, hnew⟩]
  · have hnone : ∀ i, (i, identifier) ∉ done := fun i hi => htouched ⟨i, hi⟩
    have hkept : ∀ i other, (i, other) ∈ done →
        Function.update base identifier shared.next other = base other := by
      refine fun i other hother => Function.update_of_ne ?_ _ _
      rintro rfl
      exact hnone i hother
    refine ⟨Function.update base identifier shared.next, shared.next + peers, ?_, hkept,
      Nat.le_add_right _ _, ?_, fun i other hother hne => Or.inr ?_⟩
    · rw [Process.entry, h.untouched identifier hnone, create_worker]
      simp only [Option.map_some, left, hnone, if_false, Function.update_self]
      rfl
    · rw [Function.update_self]
    · rw [Function.update_self, hkept i other hother]
      exact h.below i other hother

theorem left_getElem? (hindex : index < peers) (hnew : (index, identifier) ∉ done) (base : ℕ) :
    (left peers base done identifier)[index]? = some (some (ends_from peers base index)) := by
  rw [left, List.getElem?_map, List.getElem?_range hindex, Option.map_some, if_neg hnew]

theorem left_set (base : ℕ) : (left peers base done identifier).set index none
    = left peers base (done ++ [(index, identifier)]) identifier := by
  rw [left, left, set_map_range]
  refine List.map_congr_left fun i _ => ?_
  by_cases hsame : i = index
  · rw [hsame, Function.update_self, if_pos (by simp)]
  · rw [Function.update_of_ne hsame]
    have hmem : (i, identifier) ∈ done ++ [(index, identifier)] ↔ (i, identifier) ∈ done := by
      simp [hsame]
    simp only [hmem]

theorem left_all_isNone (base : ℕ) : (left peers base done identifier).all Option.isNone = true ↔
    ∀ index < peers, (index, identifier) ∈ done := by
  rw [left, List.all_map, List.all_eq_true]
  refine forall_congr' fun i => ?_
  rw [List.mem_range, Function.comp_apply]
  by_cases hmem : (i, identifier) ∈ done
  · simp [hmem]
  · simp [hmem]

/-- A worker that has not taken its ends takes them. -/
theorem Wired.allocate (h : Wired peers done base shared) (hindex : index < peers)
    (hnew : (index, identifier) ∉ done) :
    ∃ (base' : UInt64 → ℕ) (shared' : Shared),
      (worker peers counters index).allocate shared identifier
        = some (ends_for peers counters (base' identifier) index identifier, shared') ∧
      Wired peers (done ++ [(index, identifier)]) base' shared' ∧
      ∀ i other, (i, other) ∈ done → base' other = base other := by
  obtain ⟨base', next', hentry, hkept, hnext, hbelow, hapart⟩ :=
    @Wired.entry peers counters done base shared index identifier h hindex hnew
  have hself : (index, identifier) ∈ done ++ [(index, identifier)] := by simp
  have hother : ∀ {i other}, other ≠ identifier →
      ((i, other) ∈ done ++ [(index, identifier)] ↔ (i, other) ∈ done) := by
    intro i other hne
    simp [hne]
  -- only the entry of this channel changes
  obtain ⟨shared', hallocate, rfl, hthis, hrest⟩ : ∃ shared' : Shared,
      (worker peers counters index).allocate shared identifier
        = some (ends_for peers counters (base' identifier) index identifier, shared') ∧
      shared'.next = next' ∧ shared'.channels identifier
        = (if (left peers (base' identifier) (done ++ [(index, identifier)]) identifier).all
            Option.isNone then none
          else some (left peers (base' identifier) (done ++ [(index, identifier)]) identifier)) ∧
      ∀ other ≠ identifier, shared'.channels other = shared.channels other := by
    refine ⟨⟨Function.update shared.channels identifier _, next'⟩, ?_, rfl,
      Function.update_self _ _ _, fun other hne => Function.update_of_ne hne _ _⟩
    simp only [Process.allocate, hentry, Option.bind_eq_bind, Option.bind_some, worker_index,
      left_getElem? hindex hnew, left_set, count_ends]
    rfl
  refine ⟨base', shared', hallocate, ?_, hkept⟩
  constructor
  · intro call hmem
    rcases List.mem_append.mp hmem with hmem | hmem
    · exact h.workers call hmem
    · rw [List.mem_singleton.mp hmem]
      exact hindex
  · intro other hnone
    have hne : other ≠ identifier := by
      rintro rfl
      exact hnone index hself
    rw [hrest other hne]
    exact h.untouched other fun i hmem => hnone i ((hother hne).mpr hmem)
  · rintro other ⟨i, hi⟩ ⟨i', hi', hmissing⟩
    by_cases hsame : other = identifier
    · subst hsame
      rw [hthis, if_neg fun hall => hmissing ((left_all_isNone _).mp hall i' hi')]
    · rw [hrest other hsame, h.partly other ⟨i, (hother hsame).mp hi⟩
        ⟨i', hi', fun hmem => hmissing ((hother hsame).mpr hmem)⟩,
        hkept i other ((hother hsame).mp hi)]
      simp only [left, hother hsame]
  · rintro other ⟨i, hi⟩ hall
    by_cases hsame : other = identifier
    · subst hsame
      rw [hthis, if_pos ((left_all_isNone _).mpr hall)]
    · rw [hrest other hsame]
      exact h.whole other ⟨i, (hother hsame).mp hi⟩ fun i' hi' => (hother hsame).mp (hall i' hi')
  · intro i other hmem
    by_cases hsame : other = identifier
    · rw [hsame]
      exact hbelow
    · have hmem' := (hother hsame).mp hmem
      rw [hkept i other hmem']
      exact Nat.le_trans (h.below i other hmem') hnext
  · intro i i' other other' hmem hmem' hne
    by_cases hsame : other = identifier
    · have hmem₂ := (hother fun heq => hne (hsame.trans heq.symm)).mp hmem'
      rw [hsame]
      exact hapart i' other' hmem₂ fun heq => hne (hsame.trans heq.symm)
    · have hmem₁ := (hother hsame).mp hmem
      by_cases hsame' : other' = identifier
      · rw [hsame']
        exact (hapart i other hmem₁ hsame).symm
      · have hmem₂ := (hother hsame').mp hmem'
        rw [hkept i other hmem₁, hkept i' other' hmem₂]
        exact h.apart hmem₁ hmem₂ hne

/-- Ends that were taken are not taken again, as long as there are any. -/
theorem Wired.allocate_again (h : Wired peers done base shared) (hdone : (index, identifier) ∈ done)
    (hleft : ∃ i < peers, (i, identifier) ∉ done) :
    (worker peers counters index).allocate shared identifier = none := by
  have hindex : index < peers := h.workers _ hdone
  have hentry : (worker peers counters index).entry shared identifier
      = some (left peers (base identifier) done identifier, shared.next) := by
    rw [Process.entry, h.partly identifier ⟨index, hdone⟩ hleft]
  have htaken : (left peers (base identifier) done identifier)[index]? = some none := by
    rw [left, List.getElem?_map, List.getElem?_range hindex, Option.map_some, if_pos hdone]
  simp only [Process.allocate, hentry, Option.bind_eq_bind, Option.bind_some, worker_index, htaken,
    Option.bind_none]

/-- Channels of different senders and identifiers are different. -/
theorem Wired.inj (h : Wired peers done base shared) {i i' : ℕ} {identifier' : UInt64}
    (hmem : (i, identifier) ∈ done) (hmem' : (i', identifier') ∈ done) {k k' : ℕ} (hk : k < peers)
    (hk' : k' < peers) :
    base identifier + k = base identifier' + k' ↔ k' = k ∧ identifier' = identifier := by
  constructor
  · intro heq
    by_cases hsame : identifier = identifier'
    · subst hsame
      exact ⟨by omega, rfl⟩
    · have := h.apart hmem hmem' hsame
      omega
  · rintro ⟨rfl, rfl⟩
    rfl

end Allocate

/-! ### Calls in any order -/

/-- What the workers of a process share, and the ends that they were given. -/
structure ProcessState where
  shared : Shared
  taken : ℕ × UInt64 → Option (List CountPusher × CountPuller)

namespace ProcessState

/-- A worker allocates a channel. -/
def call (workers : List Process) (state : ProcessState) (call : ℕ × UInt64) :
    Option ProcessState := do
  let worker ← workers[call.1]?
  let (ends, shared) ← worker.allocate state.shared call.2
  return ⟨shared, Function.update state.taken call (some ends)⟩

/-- The pushers of a channel deliver to the pullers of the workers in turn, and to no others; a
    pusher counts and buzzes where it delivers.  Ends are taken once. -/
structure Delivers (workers : List Process) (calls : List (ℕ × UInt64)) (state : ProcessState) :
    Prop where
  ends : ∀ index identifier, (index, identifier) ∈ calls → ∃ pushers puller,
    state.taken (index, identifier) = some (pushers, puller) ∧ pushers.length = workers.length ∧
      ∀ k pusher, pushers[k]? = some pusher →
        (workers[k]?).map Process.counters_recv = some pusher.events ∧ pusher.buzzer = k ∧
        ∀ index' identifier' pushers' puller',
          state.taken (index', identifier') = some (pushers', puller') →
          (pusher.pusher = puller'.puller ↔ index' = k ∧ identifier' = identifier)
  again : ∀ index identifier, (index, identifier) ∈ calls →
    (∃ other < workers.length, (other, identifier) ∉ calls) →
    state.call workers (index, identifier) = none
  removed : ∀ identifier, (∀ index < workers.length, (index, identifier) ∈ calls) →
    state.shared.channels identifier = none

/-- What holds between calls. -/
structure Calls (peers counters : ℕ) (done : List (ℕ × UInt64)) (base : UInt64 → ℕ)
    (state : ProcessState) : Prop where
  wired : Wired peers done base state.shared
  taken : ∀ index identifier, (index, identifier) ∈ done → state.taken (index, identifier)
    = some (ends_for peers counters (base identifier) index identifier)
  others : ∀ call, call ∉ done → state.taken call = none

theorem Calls.call {done : List (ℕ × UInt64)} {base : UInt64 → ℕ} {state : ProcessState}
    (h : Calls peers counters done base state) {index : ℕ} {identifier : UInt64}
    (hindex : index < peers) (hnew : (index, identifier) ∉ done) :
    ∃ base' state', state.call ((List.range peers).map (worker peers counters)) (index, identifier)
        = some state' ∧ Calls peers counters (done ++ [(index, identifier)]) base' state' := by
  obtain ⟨base', shared', hallocate, hwired, hkept⟩ :=
    @Wired.allocate peers counters done base state.shared index identifier h.wired hindex hnew
  refine ⟨base', ⟨shared', Function.update state.taken (index, identifier)
    (some (ends_for peers counters (base' identifier) index identifier))⟩, ?_, hwired, ?_, ?_⟩
  · rw [ProcessState.call, List.getElem?_map, List.getElem?_range hindex]
    simp only [Option.map_some, Option.bind_eq_bind, Option.bind_some, hallocate]
    rfl
  · intro other identifier' hmem
    by_cases hsame : (other, identifier') = (index, identifier)
    · obtain ⟨rfl, rfl⟩ := Prod.mk.inj hsame
      exact Function.update_self _ _ _
    · have hmem' : (other, identifier') ∈ done := by
        rcases List.mem_append.mp hmem with hmem | hmem
        · exact hmem
        · exact absurd (List.mem_singleton.mp hmem) hsame
      rw [hkept other identifier' hmem']
      exact (Function.update_of_ne hsame _ _).trans (h.taken other identifier' hmem')
  · intro call hcall
    rw [List.mem_append, List.mem_singleton, not_or] at hcall
    exact (Function.update_of_ne hcall.2 _ _).trans (h.others call hcall.1)

theorem Calls.run {calls done : List (ℕ × UInt64)} {base : UInt64 → ℕ} {state : ProcessState}
    (h : Calls peers counters done base state) (hcalls : (done ++ calls).Nodup)
    (hworkers : ∀ call ∈ calls, call.1 < peers) :
    ∃ base' state', calls.foldlM (ProcessState.call ((List.range peers).map (worker peers counters)))
        state = some state' ∧ Calls peers counters (done ++ calls) base' state' := by
  have hfold : ∃ state', calls.foldlM (ProcessState.call ((List.range peers).map (worker peers counters)))
      state = some state' ∧ ∃ base', Calls peers counters (done ++ calls) base' state' := by
    refine exists_foldlM_history (P := fun made after => ∃ base', Calls peers counters (done ++ made) base' after)
      ⟨base, by rwa [List.append_nil]⟩ ?_
    rintro before ⟨index, identifier⟩ made more rfl ⟨middle, hbefore⟩
    rw [← List.append_assoc] at hcalls
    have hnew : (index, identifier) ∉ done ++ made := fun hmem =>
      (List.nodup_append.mp hcalls).2.2 _ hmem _ List.mem_cons_self rfl
    obtain ⟨base', after, hcall, hafter⟩ := hbefore.call (hworkers (index, identifier) (by simp)) hnew
    exact ⟨after, hcall, base', by rwa [← List.append_assoc]⟩
  obtain ⟨state', hcalled, base', hlast⟩ := hfold
  exact ⟨base', state', hcalled, hlast⟩

theorem Calls.delivers {done : List (ℕ × UInt64)} {base : UInt64 → ℕ} {state : ProcessState}
    (h : Calls peers counters done base state) :
    Delivers ((List.range peers).map (worker peers counters)) done state := by
  have hlength : ((List.range peers).map (worker peers counters)).length = peers := by simp
  refine ⟨fun index identifier hmem => ⟨_, _, h.taken index identifier hmem, ?_, ?_⟩,
    fun index identifier hmem hleft => ?_, fun identifier hall => ?_⟩
  · rw [hlength, List.length_map, List.length_range]
  · intro k pusher hpusher
    rw [List.getElem?_map] at hpusher
    obtain ⟨k', hk', rfl⟩ := Option.map_eq_some_iff.mp hpusher
    obtain ⟨hrange, hsame⟩ := List.getElem?_eq_some_iff.mp hk'
    rw [List.getElem_range] at hsame
    subst hsame
    have hk : k < peers := by simpa using hrange
    refine ⟨?_, rfl, fun index' identifier' pushers' puller' htaken => ?_⟩
    · rw [List.getElem?_map, List.getElem?_range hk]
      rfl
    · by_cases hmem' : (index', identifier') ∈ done
      · rw [h.taken index' identifier' hmem'] at htaken
        obtain ⟨rfl, rfl⟩ := Prod.mk.inj (Option.some.inj htaken)
        exact h.wired.inj hmem hmem' hk (h.wired.workers _ hmem')
      · rw [h.others _ hmem'] at htaken
        cases htaken
  · rw [hlength] at hleft
    have hindex : index < peers := h.wired.workers _ hmem
    rw [ProcessState.call, List.getElem?_map, List.getElem?_range hindex]
    simp only [Option.map_some, Option.bind_eq_bind, Option.bind_some,
      h.wired.allocate_again hmem hleft, Option.bind_none]
  · rw [hlength] at hall
    by_cases htouched : ∃ index, (index, identifier) ∈ done
    · exact h.wired.whole identifier htouched hall
    · exact h.wired.untouched identifier fun index hmem => htouched ⟨index, hmem⟩

/-- In whatever order the threads of a process send their buzzers and allocate their channels,
    each gets its ends, and the pusher in a position delivers to the puller of the thread with
    this number. -/
theorem delivers {peers : ℕ} {buzzers : List (ℕ × ℕ)} {calls : List (ℕ × UInt64)}
    (hbuzzers : buzzers.Perm (ProcessBuilder.buzz (ProcessBuilder.new_vector peers 0).1))
    (hworkers : ∀ call ∈ calls, call.1 < peers) (hcalls : calls.Nodup) :
    ∃ workers state,
      (ProcessBuilder.new_vector peers 0).1.mapM (ProcessBuilder.build · buzzers) = some workers ∧
      calls.foldlM (ProcessState.call workers)
        ⟨Shared.new (ProcessBuilder.new_vector peers 0).2, fun _ => none⟩ = some state ∧
      workers.length = peers ∧ Delivers workers calls state := by
  have hstart : Calls peers 0 [] (fun _ => 0)
      ⟨Shared.new (ProcessBuilder.new_vector peers 0).2, fun _ => none⟩ :=
    ⟨wired_new _ _ _, fun _ _ hmem => absurd hmem List.not_mem_nil, fun _ _ => rfl⟩
  obtain ⟨base, state, hrun, hlast⟩ := hstart.run hcalls hworkers
  exact ⟨_, state, ProcessBuilder.build_new_vector hbuzzers, hrun, by simp, hlast.delivers⟩

end ProcessState

end Timely.Network
