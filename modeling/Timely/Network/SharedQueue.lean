/-
  Timely/Network/SharedQueue.lean
  ===============================
  **The two parties of a queue** (`MergeQueue` of `zero_copy/bytes_exchange.rs`).

  Each party has a handle to the queue.  The producer extends it, and the consumer
  drains it and asks whether it is complete; both drop their handles at some time.
  A call accesses what is shared more than once: it reads the flag that says that
  a party has panicked, and takes the lock; in between it may count the handles.
  The other party may do anything between these accesses.

  Accesses come one after another here.  What reorderings of them the memory model
  allows for is left out.
-/
import Timely.Network.SharedSlices
import Timely.Library.Run

set_option linter.unusedSectionVars false

namespace Timely.Network

namespace SharedQueue

/-! ### A queue -/

/-- What a party does with its handle next. -/
inductive Handle where
  | idle
  /-- Within `extend`, to take the lock. -/
  | extending
  /-- Within `drain_into`, to take the lock. -/
  | draining
  /-- Within `is_complete`, to count the handles. -/
  | counting
  /-- Within `is_complete`, to take the lock. -/
  | locking
  /-- Within `drop`, to give the queue up. -/
  | dropping
  | dropped
  deriving DecidableEq

namespace Handle

/-- How often a handle counts. -/
def count : Handle → ℕ
  | dropped => 0
  | _ => 1

end Handle

/-- A queue with its parties, next to what they have put into it and taken out of it. -/
structure State where
  queue : List Bytes
  /-- The number of handles. -/
  handles : ℕ
  panic : Bool
  producer : Handle
  consumer : Handle
  /-- The slices by which the queue was extended. -/
  extended : List Bytes
  /-- Their bytes, when it was. -/
  extended_bytes : List UInt8
  /-- The slices that were drained. -/
  drained : List Bytes
  /-- Their bytes, when they were. -/
  drained_bytes : List UInt8

/-- A new queue, which was cloned once. -/
def new : State := ⟨[], 2, false, .idle, .idle, [], [], [], []⟩

inductive Act where
  | begin_extend
  | extend (items : List Bytes)
  | begin_drain
  | drain_into
  | begin_complete
  /-- Finds one handle. -/
  | strong_count
  /-- Returns. -/
  | is_complete (complete : Bool)
  | drop_producer (panicking : Bool)
  | producer_dropped
  | drop_consumer (panicking : Bool)
  | consumer_dropped
  deriving DecidableEq

/-- Steps of the parties that leave the queue as it is.  A call that reads that the other party
    has panicked panics, and a thread that panics drops its handles. -/
inductive Quiet (s : State) : Act → State → Prop
  | begin_extend : s.producer = .idle → s.panic = false →
      Quiet s .begin_extend { s with producer := .extending }
  | begin_drain : s.consumer = .idle → s.panic = false →
      Quiet s .begin_drain { s with consumer := .draining }
  | begin_complete : s.consumer = .idle → s.panic = false →
      Quiet s .begin_complete { s with consumer := .counting }
  | shared : s.consumer = .counting → s.handles ≠ 1 →
      Quiet s (.is_complete false) { s with consumer := .idle }
  | alone : s.consumer = .counting → s.handles = 1 →
      Quiet s .strong_count { s with consumer := .locking }
  | is_empty : s.consumer = .locking →
      Quiet s (.is_complete s.queue.isEmpty) { s with consumer := .idle }
  | drop_producer {panicking : Bool} : s.producer = .idle → panicking = true ∨ s.panic = false →
      Quiet s (.drop_producer panicking)
        { s with producer := .dropping, panic := s.panic || panicking }
  | producer_dropped : s.producer = .dropping →
      Quiet s .producer_dropped { s with producer := .dropped, handles := s.handles - 1 }
  | drop_consumer {panicking : Bool} : s.consumer = .idle → panicking = true ∨ s.panic = false →
      Quiet s (.drop_consumer panicking)
        { s with consumer := .dropping, panic := s.panic || panicking }
  | consumer_dropped : s.consumer = .dropping →
      Quiet s .consumer_dropped { s with consumer := .dropped, handles := s.handles - 1 }

/-- The producer takes the lock, and extends the queue. -/
def State.extend (s : State) (memory : Memory) (items : List Bytes) : State :=
  { s with
    queue := (SharedQueue.extend memory s.queue items).2
    producer := .idle
    extended := s.extended ++ items
    extended_bytes := s.extended_bytes ++ contents memory items }

/-- The consumer takes the lock, and drains the queue. -/
def State.drain_into (s : State) (memory : Memory) : State :=
  { s with
    queue := []
    consumer := .idle
    drained := s.drained ++ s.queue
    drained_bytes := s.drained_bytes ++ contents memory s.queue }

/-- The producer is gone, and nothing is left. -/
structure Complete (s : State) : Prop where
  producer : s.producer = .dropped
  queue : s.queue = []

/-- What holds at any time: only adjacent slices were merged, the bytes that were drained and
    those in the queue are those by which it was extended, and handles are counted.  A consumer
    that has found itself alone is alone. -/
structure Kept (memory : Memory) (s : State) : Prop where
  merged : Merged s.extended (s.drained ++ s.queue)
  bytes : s.extended_bytes = s.drained_bytes ++ contents memory s.queue
  handles : s.handles = s.producer.count + s.consumer.count
  alone : s.consumer = .locking → s.producer = .dropped

section State

variable {memory memory' : Memory} {s s' : State} {act : Act}

theorem kept_new (memory : Memory) : Kept memory new :=
  ⟨Relation.ReflTransGen.refl, rfl, rfl, fun h => by cases h⟩

/-- Memories may differ where the queue does not read. -/
theorem Kept.of_deref (h : Kept memory s) (hsame : ∀ b ∈ s.queue, b.deref memory' = b.deref memory) :
    Kept memory' s :=
  ⟨h.merged, by rw [contents_congr hsame]; exact h.bytes, h.handles, h.alone⟩

theorem Kept.quiet (h : Kept memory s) (hstep : Quiet s act s') : Kept memory s' := by
  obtain ⟨hmerged, hbytes, hhandles, halone⟩ := h
  cases hstep with
  | begin_extend hproducer _ =>
    rw [hproducer] at hhandles
    refine ⟨hmerged, hbytes, hhandles, fun hconsumer => ?_⟩
    rw [halone hconsumer] at hproducer
    cases hproducer
  | begin_drain hconsumer _ =>
    rw [hconsumer] at hhandles
    exact ⟨hmerged, hbytes, hhandles, fun hlocking => by cases hlocking⟩
  | begin_complete hconsumer _ =>
    rw [hconsumer] at hhandles
    exact ⟨hmerged, hbytes, hhandles, fun hlocking => by cases hlocking⟩
  | shared hconsumer _ =>
    rw [hconsumer] at hhandles
    exact ⟨hmerged, hbytes, hhandles, fun hlocking => by cases hlocking⟩
  | alone hconsumer hone =>
    rw [hconsumer] at hhandles
    refine ⟨hmerged, hbytes, hhandles, fun _ => ?_⟩
    -- the one handle is the consumer's
    have hcount : s.producer.count = 0 := by
      rw [hone, Handle.count.eq_def .counting] at hhandles
      simpa using hhandles.symm
    cases hproducer : s.producer with
    | dropped => rfl
    | _ => rw [hproducer] at hcount; cases hcount
  | is_empty hconsumer =>
    rw [hconsumer] at hhandles
    exact ⟨hmerged, hbytes, hhandles, fun hlocking => by cases hlocking⟩
  | drop_producer hproducer _ =>
    rw [hproducer] at hhandles
    refine ⟨hmerged, hbytes, hhandles, fun hconsumer => ?_⟩
    rw [halone hconsumer] at hproducer
    cases hproducer
  | producer_dropped hproducer =>
    rw [hproducer] at hhandles
    refine ⟨hmerged, hbytes, ?_, fun _ => rfl⟩
    simp only [hhandles, Handle.count]
    omega
  | drop_consumer hconsumer _ =>
    rw [hconsumer] at hhandles
    exact ⟨hmerged, hbytes, hhandles, fun hlocking => by cases hlocking⟩
  | consumer_dropped hconsumer =>
    rw [hconsumer] at hhandles
    refine ⟨hmerged, hbytes, ?_, fun hlocking => by cases hlocking⟩
    simp only [hhandles, Handle.count]
    omega

theorem Kept.extend (h : Kept memory s) (hproducer : s.producer = .extending) (items : List Bytes) :
    Kept (SharedQueue.extend memory s.queue items).1 (s.extend memory items) := by
  obtain ⟨hmerged, hvalue, -⟩ := extend_spec memory s.queue items
  refine ⟨?_, ?_, ?_, fun hconsumer => ?_⟩
  · have hbefore : Merged (s.extended ++ items) (s.drained ++ s.queue ++ items) :=
      h.merged.append_right
    rw [List.append_assoc] at hbefore
    exact hbefore.trans hmerged.append_left
  · have hcontents : contents (SharedQueue.extend memory s.queue items).1
        (SharedQueue.extend memory s.queue items).2 = contents memory (s.queue ++ items) := by
      rw [hmerged.contents_eq]
      exact contents_congr fun b _ => deref_of_value hvalue b
    simp only [State.extend, hcontents, h.bytes, contents_append, List.append_assoc]
  · have hhandles := h.handles
    rw [hproducer] at hhandles
    exact hhandles
  · have hdropped := h.alone hconsumer
    rw [hproducer] at hdropped
    cases hdropped

theorem Kept.drain_into (h : Kept memory s) (hconsumer : s.consumer = .draining) :
    Kept memory (s.drain_into memory) := by
  have hhandles := h.handles
  rw [hconsumer] at hhandles
  refine ⟨?_, ?_, hhandles, fun hlocking => by cases hlocking⟩
  · simp only [State.drain_into, List.append_nil]
    exact h.merged
  · simp only [State.drain_into, contents_nil, List.append_nil]
    exact h.bytes

/-- The queue is complete when the consumer is told so. -/
theorem Kept.complete (h : Kept memory s) (hstep : Quiet s (.is_complete true) s') : Complete s' := by
  generalize hact : Act.is_complete true = act at hstep
  cases hstep with
  | is_empty hconsumer =>
    have hempty : true = s.queue.isEmpty := Act.is_complete.inj hact
    exact ⟨h.alone hconsumer, List.isEmpty_iff.mp hempty.symm⟩
  | shared => cases hact
  | _ => cases hact

theorem Complete.quiet (h : Complete s) (hstep : Quiet s act s') : Complete s' := by
  obtain ⟨hproducer, hqueue⟩ := h
  cases hstep with
  | begin_extend hidle _ =>
    rw [hproducer] at hidle
    cases hidle
  | drop_producer hidle _ =>
    rw [hproducer] at hidle
    cases hidle
  | producer_dropped _ => exact ⟨rfl, hqueue⟩
  | _ => exact ⟨hproducer, hqueue⟩

theorem Quiet.frame (hstep : Quiet s act s') : s'.queue = s.queue ∧
    s'.extended_bytes = s.extended_bytes ∧ s'.drained_bytes = s.drained_bytes := by
  cases hstep <;> exact ⟨rfl, rfl, rfl⟩

end State

/-! ### Queues in one memory -/

/-- Queues with one consumer, what it has drained and from where, and the slices that it or any
    other thread holds. -/
structure World where
  memory : Memory
  queues : List State
  stash : List (ℕ × Bytes)
  held : List Bytes

inductive Event where
  | act (index : ℕ) (act : Act)
  /-- The consumer takes a slice out of the stash, to read and drop it. -/
  | write
  /-- The consumer takes a slice out of the stash, for anything else. -/
  | consume
  /-- Threads do something with slices that they hold. -/
  | elsewhere
  deriving DecidableEq

namespace World

/-- Some new queues. -/
def start (memory : Memory) (held : List Bytes) (count : ℕ) : World :=
  ⟨memory, List.replicate count new, [], held⟩

/-- The slices that exist. -/
def live (world : World) : List Bytes :=
  world.queues.flatMap State.queue ++ (world.stash.map Prod.snd ++ world.held)

inductive Step (world : World) : Event → World → Prop
  | quiet {index : ℕ} {act : Act} {s s' : State} :
      world.queues[index]? = some s → Quiet s act s' →
      Step world (.act index act) { world with queues := world.queues.set index s' }
  | extend {index : ℕ} {items rest : List Bytes} {s : State} :
      world.queues[index]? = some s → s.producer = .extending → world.held.Perm (items ++ rest) →
      Step world (.act index (.extend items))
        { world with
          memory := (SharedQueue.extend world.memory s.queue items).1
          queues := world.queues.set index (s.extend world.memory items)
          held := rest }
  | drain_into {index : ℕ} {s : State} :
      world.queues[index]? = some s → s.consumer = .draining →
      Step world (.act index .drain_into)
        { world with
          queues := world.queues.set index (s.drain_into world.memory)
          stash := world.stash ++ s.queue.map fun bytes => (index, bytes) }
  | write {index : ℕ} {bytes : Bytes} {stash : List (ℕ × Bytes)} :
      world.stash = (index, bytes) :: stash →
      Step world .write { world with memory := bytes.drop world.memory, stash }
  | consume {index : ℕ} {bytes : Bytes} {stash : List (ℕ × Bytes)} :
      world.stash = (index, bytes) :: stash →
      Step world .consume { world with stash, held := bytes :: world.held }
  | elsewhere {memory : Memory} {held : List Bytes} :
      Elsewhere world.memory world.held memory held →
      Step world .elsewhere { world with memory, held }

/-- What holds at any time. -/
structure Kept (world : World) : Prop where
  owned : Owned world.memory world.live
  queues : ∀ s ∈ world.queues, SharedQueue.Kept world.memory s

variable {world world' : World} {event : Event}

theorem kept_start {memory : Memory} {held : List Bytes} (h : Owned memory held) (count : ℕ) :
    Kept (start memory held count) := by
  refine ⟨?_, fun s hmem => ?_⟩
  · have hlive : (start memory held count).live = held := by
      simp [live, start, List.flatMap_replicate, new]
    rw [hlive]
    exact h
  · rw [List.eq_of_mem_replicate hmem]
    exact kept_new memory

/-- The slices of one queue among those of all. -/
theorem flatMap_set {queues : List State} {index : ℕ} {s : State} (h : queues[index]? = some s) :
    ∃ others, (queues.flatMap State.queue).Perm (s.queue ++ others) ∧
      ∀ s', ((queues.set index s').flatMap State.queue).Perm (s'.queue ++ others) := by
  obtain ⟨hindex, rfl⟩ := List.getElem?_eq_some_iff.mp h
  have hset : ∀ s', ((queues.set index s').flatMap State.queue).Perm
      (s'.queue ++ ((queues.take index).flatMap State.queue
        ++ (queues.drop (index + 1)).flatMap State.queue)) := by
    intro s'
    rw [List.set_eq_take_append_cons_drop, if_pos hindex, List.flatMap_append, List.flatMap_cons]
    exact List.perm_append_comm_assoc _ _ _
  refine ⟨_, ?_, hset⟩
  have hself := hset (queues.get ⟨index, hindex⟩)
  rwa [List.get_eq_getElem, List.set_getElem_self] at hself

/-- What is in a queue or in the stash reads the same after a step. -/
theorem Step.deref (hstep : Step world event world') (h : world.Kept) {b : Bytes}
    (hmem : b ∈ world.queues.flatMap State.queue ++ world.stash.map Prod.snd) :
    b.deref world'.memory = b.deref world.memory := by
  cases hstep with
  | extend _ _ _ => exact deref_of_value (extend_spec _ _ _).value b
  | write _ => exact Owned.deref_drop
  | elsewhere helsewhere =>
    have howned := h.owned
    rw [live, ← List.append_assoc] at howned
    exact (helsewhere.keeps howned).2 b hmem
  | _ => rfl

/-- What a queue is made of after a step of its parties, and the others as they were. -/
theorem Kept.set {memory : Memory} {index : ℕ} {s' : State} (h : world.Kept)
    (hderef : ∀ b ∈ world.queues.flatMap State.queue, b.deref memory = b.deref world.memory)
    (hs' : SharedQueue.Kept memory s') :
    ∀ s ∈ world.queues.set index s', SharedQueue.Kept memory s := by
  intro s hmem
  rcases List.mem_or_eq_of_mem_set hmem with hmem | rfl
  · exact (h.queues s hmem).of_deref fun b hb =>
      hderef b (List.mem_flatMap.mpr ⟨s, hmem, hb⟩)
  · exact hs'

theorem Kept.step (h : world.Kept) (hstep : Step world event world') : world'.Kept := by
  have hderef := fun b (hb : b ∈ world.queues.flatMap State.queue) =>
    hstep.deref h (List.mem_append_left (world.stash.map Prod.snd) hb)
  cases hstep with
  | @quiet index act s s' hs hquiet =>
    have hkept := (h.queues s (List.mem_of_getElem? hs)).quiet hquiet
    obtain ⟨others, hbefore, hafter⟩ := flatMap_set hs
    refine ⟨h.owned.perm (List.Perm.append_right _ ?_), h.set hderef hkept⟩
    have hset := hafter s'
    rw [hquiet.frame.1] at hset
    exact hbefore.trans hset.symm
  | @extend index items rest s hs hproducer hheld =>
    have hkept := (h.queues s (List.mem_of_getElem? hs)).extend hproducer items
    obtain ⟨others, hbefore, hafter⟩ := flatMap_set hs
    refine ⟨?_, h.set hderef hkept⟩
    -- the items that are pushed were held
    have howned : Owned world.memory
        (s.queue ++ items ++ (others ++ (world.stash.map Prod.snd ++ rest))) := by
      refine h.owned.perm (List.perm_iff_count.mpr fun b => ?_)
      have hq := hbefore.count_eq b
      have hi := hheld.count_eq b
      simp only [live, List.count_append] at hq hi ⊢
      omega
    refine ((extend_spec world.memory s.queue items).owned _ howned).perm
      (List.perm_iff_count.mpr fun b => ?_)
    have hq := (hafter (s.extend world.memory items)).count_eq b
    simp only [live, State.extend, List.count_append] at hq ⊢
    omega
  | @drain_into index s hs hconsumer =>
    have hkept := (h.queues s (List.mem_of_getElem? hs)).drain_into hconsumer
    obtain ⟨others, hbefore, hafter⟩ := flatMap_set hs
    refine ⟨h.owned.perm (List.perm_iff_count.mpr fun b => ?_), h.set hderef hkept⟩
    have hq := hbefore.count_eq b
    have hq' := (hafter (s.drain_into world.memory)).count_eq b
    simp only [live, State.drain_into, List.count_append, List.map_append, List.map_map,
      Function.comp_def, List.map_id', List.count_nil] at hq hq' ⊢
    omega
  | @write index bytes stash hstash =>
    refine ⟨Owned.drop (h.owned.perm ?_), fun s hmem => (h.queues s hmem).of_deref fun b hb =>
      hderef b (List.mem_flatMap.mpr ⟨s, hmem, hb⟩)⟩
    rw [live, hstash]
    exact List.perm_middle
  | @consume index bytes stash hstash =>
    refine ⟨h.owned.perm ?_, h.queues⟩
    rw [live, live, hstash]
    exact List.Perm.append_left _ List.perm_middle.symm
  | @elsewhere memory held helsewhere =>
    have howned := h.owned
    rw [live, ← List.append_assoc] at howned
    refine ⟨?_, fun s hmem => (h.queues s hmem).of_deref fun b hb =>
      hderef b (List.mem_flatMap.mpr ⟨s, hmem, hb⟩)⟩
    rw [live, ← List.append_assoc]
    exact (helsewhere.keeps howned).1

/-! ### What a queue is without the allocations -/

/-- A call at a queue of bytes: what it is extended by, or what is drained from it. -/
inductive ByteCall where
  | extend (items : List (List UInt8))
  | drain_into (drained : List (List UInt8))

namespace ByteCall

/-- The bytes that a call adds. -/
def extended : ByteCall → List UInt8
  | extend items => items.flatten
  | drain_into _ => []

/-- The bytes that a call takes. -/
def drained : ByteCall → List UInt8
  | extend _ => []
  | drain_into drained => drained.flatten

end ByteCall

/-- The calls of a `MergeQueue` of bytes, with any outcome of its merges. -/
inductive ByteStep : List (List UInt8) → ByteCall → List (List UInt8) → Prop
  | extend {queue : List (List UInt8)} (merges : List Bool) (items : List (List UInt8)) :
      ByteStep queue (.extend items) (MergeQueue.extend merges queue items)
  | drain_into {queue : List (List UInt8)} :
      ByteStep queue (.drain_into (MergeQueue.drain_into queue []).1) (MergeQueue.drain_into queue []).2

/-- The bytes of the slices in a queue. -/
def bytes_of (memory : Memory) (s : State) : List (List UInt8) := s.queue.map (Bytes.deref memory)

theorem flatten_map_deref (memory : Memory) (slices : List Bytes) :
    (slices.map (Bytes.deref memory)).flatten = contents memory slices :=
  List.flatMap_def.symm

/-- What has become of a queue has become of its bytes in some calls, which extend them and drain them by
    the same bytes. -/
def Refined (memory memory' : Memory) (s s' : State) : Prop :=
  ∃ calls, Library.Run ByteStep (bytes_of memory s) calls (bytes_of memory' s') ∧
    s'.extended_bytes = s.extended_bytes ++ calls.flatMap ByteCall.extended ∧
    s'.drained_bytes = s.drained_bytes ++ calls.flatMap ByteCall.drained

section Refined

variable {memory memory' memory'' : Memory} {s s' s'' : State}

theorem Refined.trans (h : Refined memory memory' s s') (h' : Refined memory' memory'' s' s'') :
    Refined memory memory'' s s'' := by
  obtain ⟨calls, hcalls, hextended, hdrained⟩ := h
  obtain ⟨more, hmore, hextended', hdrained'⟩ := h'
  refine ⟨calls ++ more, hcalls.append hmore, ?_, ?_⟩
  · rw [hextended', hextended, List.flatMap_append, List.append_assoc]
  · rw [hdrained', hdrained, List.flatMap_append, List.append_assoc]

/-- A queue that stays as it is, and its bytes with it, has seen no call. -/
theorem refined_of_same (hqueue : s'.queue = s.queue) (hextended : s'.extended_bytes = s.extended_bytes)
    (hdrained : s'.drained_bytes = s.drained_bytes)
    (hderef : ∀ b ∈ s.queue, b.deref memory' = b.deref memory) : Refined memory memory' s s' := by
  have hbytes : bytes_of memory' s' = bytes_of memory s := by
    unfold bytes_of
    rw [hqueue]
    exact List.map_congr_left hderef
  refine ⟨[], ?_, ?_, ?_⟩
  · rw [hbytes]
    exact Library.Run.nil
  · simpa using hextended
  · simpa using hdrained

theorem refined_extend (memory : Memory) (s : State) (items : List Bytes) :
    Refined memory (SharedQueue.extend memory s.queue items).1 s (s.extend memory items) := by
  obtain ⟨merges, hmerges⟩ := extend_refines memory s.queue items
  have hbytes : bytes_of (SharedQueue.extend memory s.queue items).1 (s.extend memory items) =
      MergeQueue.extend merges (bytes_of memory s) (items.map (Bytes.deref memory)) := by
    refine Eq.trans ?_ hmerges
    exact List.map_congr_left fun b _ => deref_of_value (extend_spec _ _ _).value b
  refine ⟨[.extend (items.map (Bytes.deref memory))], ?_, ?_, ?_⟩
  · rw [hbytes]
    exact Library.Run.nil.snoc (ByteStep.extend merges _)
  · simp [State.extend, ByteCall.extended, flatten_map_deref]
  · simp [State.extend, ByteCall.drained]

theorem refined_drain_into (memory : Memory) (s : State) : Refined memory memory s (s.drain_into memory) := by
  refine ⟨[.drain_into (MergeQueue.drain_into (bytes_of memory s) []).1], ?_, ?_, ?_⟩
  · exact Library.Run.nil.snoc ByteStep.drain_into
  · simp [State.drain_into, ByteCall.extended]
  · simp [State.drain_into, ByteCall.drained, MergeQueue.drain_into, bytes_of, flatten_map_deref]

end Refined

/-- What a step is to a queue: it is the one that the step is about, or stays as it is. -/
theorem Step.refines (hstep : Step world event world') (h : world.Kept) {index : ℕ} {s' : State}
    (hs' : world'.queues[index]? = some s') :
    ∃ s, world.queues[index]? = some s ∧ Refined world.memory world'.memory s s' := by
  have hsame : world.queues[index]? = some s' →
      ∃ s, world.queues[index]? = some s ∧ Refined world.memory world'.memory s s' := by
    intro hs
    refine ⟨s', hs, refined_of_same rfl rfl rfl fun b hb => ?_⟩
    exact hstep.deref h (List.mem_append_left _ (List.mem_flatMap.mpr ⟨s', List.mem_of_getElem? hs, hb⟩))
  have hset : ∀ {changed : ℕ} {s t : State}, world.queues[changed]? = some s →
      (world.queues.set changed t)[index]? = some s' → Refined world.memory world'.memory s t →
      ∃ s, world.queues[index]? = some s ∧ Refined world.memory world'.memory s s' := by
    intro changed s t hs hset hrefined
    by_cases hindex : changed = index
    · subst hindex
      rw [List.getElem?_set_self (List.getElem?_eq_some_iff.mp hs).1] at hset
      obtain rfl := Option.some.inj hset
      exact ⟨s, hs, hrefined⟩
    · rw [List.getElem?_set_ne hindex] at hset
      exact hsame hset
  cases hstep with
  | quiet hs hquiet =>
    exact hset hs hs' (refined_of_same hquiet.frame.1 hquiet.frame.2.1 hquiet.frame.2.2 fun _ _ => rfl)
  | extend hs _ _ => exact hset hs hs' (refined_extend _ _ _)
  | drain_into hs _ => exact hset hs hs' (refined_drain_into _ _)
  | write hstash => exact hsame hs'
  | consume hstash => exact hsame hs'
  | elsewhere helsewhere => exact hsame hs'

/-- In every run each of the shared queues has been a queue of bytes, which was extended by the same bytes
    and from which the same bytes were drained: what is shown of queues of bytes holds of shared ones. -/
theorem refines_of_run {memory : Memory} {held : List Bytes} {count : ℕ} {events : List Event}
    (hheld : Owned memory held) (hrun : Library.Run Step (start memory held count) events world) {index : ℕ}
    {s : State} (hs : world.queues[index]? = some s) :
    ∃ calls, Library.Run ByteStep [] calls (bytes_of world.memory s) ∧
      s.extended_bytes = calls.flatMap ByteCall.extended ∧ s.drained_bytes = calls.flatMap ByteCall.drained := by
  have hall : world.Kept ∧ ∀ s, world.queues[index]? = some s → Refined memory world.memory new s := by
    refine hrun.invariant (P := fun _ world => Kept world ∧ ∀ s, world.queues[index]? = some s →
      Refined memory world.memory new s) ⟨kept_start hheld count, fun s hs => ?_⟩ ?_
    · rw [List.eq_of_mem_replicate (List.mem_of_getElem? hs)]
      exact refined_of_same rfl rfl rfl fun _ _ => rfl
    · rintro _ before event after ⟨hkept, hbefore⟩ hstep
      refine ⟨hkept.step hstep, fun s' hs' => ?_⟩
      obtain ⟨s, hs, hrefined⟩ := hstep.refines hkept hs'
      exact (hbefore s hs).trans hrefined
  exact hall.2 s hs

/-- Which queues are complete. -/
def Completed (world : World) (index : ℕ) : Prop :=
  ∃ s, world.queues[index]? = some s ∧ Complete s

theorem Completed.set {index other : ℕ} {s s' : State} (h : world.Completed other)
    (hs : world.queues[index]? = some s) (hcomplete : Complete s → Complete s') {memory : Memory}
    {stash : List (ℕ × Bytes)} {held : List Bytes} :
    Completed ⟨memory, world.queues.set index s', stash, held⟩ other := by
  obtain ⟨t, ht, hcomplete'⟩ := h
  by_cases hsame : other = index
  · subst hsame
    obtain rfl := Option.some.inj (hs.symm.trans ht)
    exact ⟨s', List.getElem?_set_self (List.getElem?_eq_some_iff.mp hs).1, hcomplete hcomplete'⟩
  · exact ⟨t, (List.getElem?_set_ne (Ne.symm hsame)).trans ht, hcomplete'⟩

/-- A complete queue stays complete. -/
theorem Completed.step {index : ℕ} (h : world.Completed index) (hstep : Step world event world') :
    world'.Completed index := by
  cases hstep with
  | quiet hs hquiet => exact h.set hs fun hcomplete => hcomplete.quiet hquiet
  | extend hs hproducer _ =>
    refine h.set hs fun hcomplete => ?_
    rw [hcomplete.producer] at hproducer
    cases hproducer
  | @drain_into _ s hs _ =>
    have hdrained : Complete s → Complete (s.drain_into world.memory) :=
      fun hcomplete => ⟨hcomplete.producer, rfl⟩
    exact h.set hs hdrained
  | _ => exact h

theorem Kept.completed {index : ℕ} (h : world.Kept)
    (hstep : Step world (.act index (.is_complete true)) world') : world'.Completed index := by
  cases hstep with
  | @quiet _ _ s s' hs hquiet =>
    exact ⟨s', List.getElem?_set_self (List.getElem?_eq_some_iff.mp hs).1,
      (h.queues s (List.mem_of_getElem? hs)).complete hquiet⟩

/-- In every run, the bytes that were drained are a prefix of those by which a queue was extended,
    and the same when it is empty; slices are merged only where they are adjacent; and a queue
    that was found complete has no producer and nothing that was not drained. -/
theorem drained_of_run {memory : Memory} {held : List Bytes} {count : ℕ} {events : List Event}
    (hheld : Owned memory held) (hrun : Library.Run Step (start memory held count) events world) :
    world.Kept ∧ ∀ index, Event.act index (.is_complete true) ∈ events → world.Completed index := by
  refine hrun.invariant (P := fun events world => Kept world ∧ ∀ index,
    Event.act index (.is_complete true) ∈ events → world.Completed index)
    ⟨kept_start hheld count, fun _ hmem => absurd hmem List.not_mem_nil⟩ ?_
  rintro events before event after ⟨hkept, hcompleted⟩ hstep
  refine ⟨hkept.step hstep, fun index hmem => ?_⟩
  rcases List.mem_append.mp hmem with hmem | hmem
  · exact (hcompleted index hmem).step hstep
  · rw [← List.mem_singleton.mp hmem] at hstep
    exact hkept.completed hstep

end World

end SharedQueue

end Timely.Network
