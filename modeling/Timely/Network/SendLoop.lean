/-
  Timely/Network/SendLoop.lean
  ============================
  **The loop that sends what workers extend queues with** (`send_loop` of
  `zero_copy/tcp.rs`).

  The loop drains its sources one after the other, and writes what it has drained.
  Where this is nothing, it asks its sources whether they are complete, drops those
  that are, and waits.  Meanwhile the producers extend and drop the queues.  The
  loop may be woken at any time.  The writer's buffer and the log are left out.
-/
import Timely.Network.SharedQueue
import Timely.Network.Transport

set_option linter.unusedSectionVars false

namespace Timely.Network

namespace SharedQueue

/-- What the loop does next. -/
inductive Pc where
  | head
  /-- Drains the sources from the first of these on. -/
  | drain (todo : List ℕ)
  /-- Writes what is in the stash. -/
  | write
  /-- Keeps some sources, and asks the first of the others whether it is complete. -/
  | retain (kept todo : List ℕ)
  /-- Drops a source that is complete. -/
  | discard (kept : List ℕ) (source : ℕ) (todo : List ℕ)
  | park
  | finished
  | panicked
  deriving DecidableEq

/-- The loop with its queues, and the bytes that were written for each source. -/
structure SendLoop where
  world : World
  sources : List ℕ
  pc : Pc
  writer : List UInt8
  /-- What was written, and where it was drained. -/
  chunks : List (ℕ × List UInt8)

/-- Acts of a producer. -/
def Act.by_producer : Act → Bool
  | begin_extend | extend _ | drop_producer _ | producer_dropped => true
  | _ => false

/-- Events that are not the loop's. -/
def Event.by_others : Event → Bool
  | .act _ done => done.by_producer
  | elsewhere => true
  | write | consume => false

/-- Events that leave the stash as it is. -/
def Event.stash_kept : Event → Bool
  | .act _ .drain_into | write | consume => false
  | _ => true

namespace SendLoop

section Steps

variable (codec : Codec)

/-- The loop over new queues. -/
def start (memory : Memory) (held : List Bytes) (count : ℕ) : SendLoop :=
  ⟨World.start memory held count, List.range count, .head, [], []⟩

inductive Step (loop : SendLoop) : Option Event → SendLoop → Prop
  | enter : loop.pc = .head → loop.sources ≠ [] →
      Step loop none { loop with pc := .drain loop.sources }
  | leave : loop.pc = .head → loop.sources = [] →
      Step loop none { loop with
        pc := .finished, writer := loop.writer ++ codec.encode final_header }
  | begin_drain {source : ℕ} {todo : List ℕ} {world : World} :
      loop.pc = .drain (source :: todo) →
      World.Step loop.world (.act source .begin_drain) world →
      Step loop (some (.act source .begin_drain)) { loop with world }
  | drain_into {source : ℕ} {todo : List ℕ} {world : World} :
      loop.pc = .drain (source :: todo) →
      World.Step loop.world (.act source .drain_into) world →
      Step loop (some (.act source .drain_into)) { loop with world, pc := .drain todo }
  | busy : loop.pc = .drain [] → loop.world.stash ≠ [] → Step loop none { loop with pc := .write }
  | idle : loop.pc = .drain [] → loop.world.stash = [] →
      Step loop none { loop with pc := .retain [] loop.sources }
  | write {source : ℕ} {bytes : Bytes} {stash : List (ℕ × Bytes)} {world : World} :
      loop.pc = .write → loop.world.stash = (source, bytes) :: stash →
      World.Step loop.world .write world →
      Step loop (some .write) { loop with
        world
        writer := loop.writer ++ bytes.deref loop.world.memory
        chunks := loop.chunks ++ [(source, bytes.deref loop.world.memory)] }
  | written : loop.pc = .write → loop.world.stash = [] → Step loop none { loop with pc := .head }
  | ask {source : ℕ} {kept todo : List ℕ} {world : World} {act : Act} :
      loop.pc = .retain kept (source :: todo) → act = .begin_complete ∨ act = .strong_count →
      World.Step loop.world (.act source act) world →
      Step loop (some (.act source act)) { loop with world }
  | incomplete {source : ℕ} {kept todo : List ℕ} {world : World} :
      loop.pc = .retain kept (source :: todo) →
      World.Step loop.world (.act source (.is_complete false)) world →
      Step loop (some (.act source (.is_complete false)))
        { loop with world, pc := .retain (kept ++ [source]) todo }
  | complete {source : ℕ} {kept todo : List ℕ} {world : World} :
      loop.pc = .retain kept (source :: todo) →
      World.Step loop.world (.act source (.is_complete true)) world →
      Step loop (some (.act source (.is_complete true)))
        { loop with world, pc := .discard kept source todo }
  | drop {source : ℕ} {kept todo : List ℕ} {world : World} :
      loop.pc = .discard kept source todo →
      World.Step loop.world (.act source (.drop_consumer false)) world →
      Step loop (some (.act source (.drop_consumer false))) { loop with world }
  | dropped {source : ℕ} {kept todo : List ℕ} {world : World} :
      loop.pc = .discard kept source todo →
      World.Step loop.world (.act source .consumer_dropped) world →
      Step loop (some (.act source .consumer_dropped)) { loop with world, pc := .retain kept todo }
  | retained {kept : List ℕ} : loop.pc = .retain kept [] →
      Step loop none { loop with sources := kept, pc := if kept = [] then .head else .park }
  | unpark : loop.pc = .park → Step loop none { loop with pc := .head }
  /-- A call that reads that a producer has panicked, or a write that fails. -/
  | panic : loop.pc ≠ .finished → Step loop none { loop with pc := .panicked }
  | unwind {source : ℕ} {act : Act} {world : World} :
      loop.pc = .panicked → act = .drop_consumer true ∨ act = .consumer_dropped →
      World.Step loop.world (.act source act) world →
      Step loop (some (.act source act)) { loop with world }
  | others {event : Event} {world : World} :
      event.by_others = true → World.Step loop.world event world →
      Step loop (some event) { loop with world }

end Steps

/-- The sources that are not known to be complete. -/
def pending (loop : SendLoop) : List ℕ :=
  match loop.pc with
  | .retain kept todo => kept ++ todo
  | .discard kept _ todo => kept ++ todo
  | _ => loop.sources

/-- What was written for a source. -/
def written_for (loop : SendLoop) (source : ℕ) : List UInt8 :=
  (loop.chunks.filter (·.1 = source)).flatMap Prod.snd

/-- What is in the stash, from a source. -/
def stashed_for (loop : SendLoop) (source : ℕ) : List UInt8 :=
  contents loop.world.memory ((loop.world.stash.filter (·.1 = source)).map Prod.snd)

/-- The loop rests: it has nothing in the stash. -/
def Resting : Pc → Prop
  | .head | .retain .. | .discard .. | .park | .finished => True
  | _ => False

/-- What holds at any time. -/
structure Kept (codec : Codec) (count : ℕ) (loop : SendLoop) : Prop where
  world : loop.world.Kept
  length : loop.world.queues.length = count
  /-- Sources that are left out are complete. -/
  pending : loop.pc ≠ .panicked → ∀ source < count, source ∉ loop.pending →
    loop.world.Completed source
  resting : Resting loop.pc → loop.world.stash = []
  finished : loop.pc = .finished → loop.sources = []
  /-- What was drained was written, or is in the stash. -/
  drained : ∀ source s, loop.world.queues[source]? = some s →
    s.drained_bytes = loop.written_for source ++ loop.stashed_for source
  writer : loop.writer = loop.chunks.flatMap Prod.snd
    ++ if loop.pc = .finished then codec.encode final_header else []

variable {codec : Codec} {count : ℕ} {loop loop' : SendLoop} {event : Event} {world : World}

theorem length_of_step {before after : World} (hstep : World.Step before event after) :
    after.queues.length = before.queues.length := by
  cases hstep with
  | quiet _ _ => exact List.length_set
  | extend _ _ _ => exact List.length_set
  | drain_into _ _ => exact List.length_set
  | _ => rfl

/-- Other events neither fill the stash nor empty it. -/
theorem stash_of_step {before after : World} (hstep : World.Step before event after)
    (hevent : event.stash_kept = true) : after.stash = before.stash ∧
      ∀ (source : ℕ) (s' : State), after.queues[source]? = some s' →
        ∃ s, before.queues[source]? = some s ∧ s'.drained_bytes = s.drained_bytes := by
  have hset : ∀ {index : ℕ} {s s' : State}, before.queues[index]? = some s →
      s'.drained_bytes = s.drained_bytes → ∀ (source : ℕ) (t' : State),
        (before.queues.set index s')[source]? = some t' →
        ∃ t, before.queues[source]? = some t ∧ t'.drained_bytes = t.drained_bytes := by
    intro index s s' hs hsame source t' ht'
    by_cases hsource : index = source
    · subst hsource
      rw [List.getElem?_set_self (List.getElem?_eq_some_iff.mp hs).1] at ht'
      exact ⟨s, hs, Option.some.inj ht' ▸ hsame⟩
    · rw [List.getElem?_set_ne hsource] at ht'
      exact ⟨t', ht', rfl⟩
  cases hstep with
  | quiet hs hquiet => exact ⟨rfl, hset hs hquiet.frame.2.2⟩
  | extend hs _ _ => exact ⟨rfl, hset hs rfl⟩
  | drain_into _ _ => cases hevent
  | write _ => cases hevent
  | consume _ => cases hevent
  | elsewhere _ => exact ⟨rfl, fun source s' hs' => ⟨s', hs', rfl⟩⟩

/-- What is in the stash reads the same after a step. -/
theorem Kept.deref (h : Kept codec count loop) (hstep : World.Step loop.world event world)
    {source : ℕ} {bytes : Bytes} (hmem : (source, bytes) ∈ loop.world.stash) :
    bytes.deref world.memory = bytes.deref loop.world.memory :=
  hstep.deref h.world (List.mem_append_right _ (List.mem_map.mpr ⟨_, hmem, rfl⟩))

theorem start_kept {memory : Memory} {held : List Bytes} (hheld : Owned memory held) (count : ℕ) :
    Kept codec count (start memory held count) := by
  refine ⟨World.kept_start hheld count, List.length_replicate, fun _ source hsource hpending => ?_,
    fun _ => rfl, fun hpc => (by cases hpc), fun source s hs => ?_, rfl⟩
  · exact absurd (List.mem_range.mpr hsource) hpending
  · rw [List.eq_of_mem_replicate (List.mem_of_getElem? hs)]
    rfl

/-- Steps of the loop alone. -/
theorem Kept.control (h : Kept codec count loop) {pc : Pc} {sources : List ℕ}
    (hbefore : loop.pc ≠ .finished) (hafter : pc ≠ .finished)
    (hpending : pc ≠ .panicked → ∀ source < count,
      source ∉ ({ loop with pc, sources } : SendLoop).pending → loop.world.Completed source)
    (hresting : Resting pc → loop.world.stash = []) :
    Kept codec count { loop with pc, sources } := by
  refine ⟨h.world, h.length, hpending, hresting, fun hpc => absurd hpc hafter, h.drained, ?_⟩
  rw [if_neg hafter]
  have hwriter := h.writer
  rwa [if_neg hbefore] at hwriter

/-- Steps that leave the stash as it is. -/
theorem Kept.aside (h : Kept codec count loop) (hstep : World.Step loop.world event world)
    (hevent : event.stash_kept = true) {pc : Pc} (hfinished : pc = .finished ↔ loop.pc = .finished)
    (hpending : pc ≠ .panicked → ∀ source < count,
      source ∉ ({ loop with world, pc } : SendLoop).pending → world.Completed source)
    (hresting : Resting pc → Resting loop.pc) : Kept codec count { loop with world, pc } := by
  obtain ⟨hstash, hqueues⟩ := stash_of_step hstep hevent
  refine ⟨h.world.step hstep, (length_of_step hstep).trans h.length, hpending,
    fun hpc => hstash.trans (h.resting (hresting hpc)), fun hpc => h.finished (hfinished.mp hpc),
    fun source s' hs' => ?_, ?_⟩
  · obtain ⟨s, hs, hsame⟩ := hqueues source s' hs'
    have hstashed : ({ loop with world, pc } : SendLoop).stashed_for source
        = loop.stashed_for source := by
      rw [stashed_for, stashed_for, hstash]
      refine contents_congr fun b hb => ?_
      obtain ⟨⟨other, bytes⟩, hmem, rfl⟩ := List.mem_map.mp hb
      exact h.deref hstep (List.mem_filter.mp hmem).1
    rw [hsame, hstashed]
    exact h.drained source s hs
  · simp only [hfinished]
    exact h.writer

theorem Kept.leave (h : Kept codec count loop) (hpc : loop.pc = .head) (hsources : loop.sources = []) :
    Kept codec count { loop with
      pc := .finished, writer := loop.writer ++ codec.encode final_header } := by
  have hpending := h.pending (by rw [hpc]; exact Pc.noConfusion)
  have hwriter := h.writer
  rw [if_neg (by rw [hpc]; exact Pc.noConfusion), List.append_nil] at hwriter
  refine ⟨h.world, h.length, fun _ source hsource hout => hpending source hsource ?_,
    fun _ => h.resting (by rw [hpc]; trivial), fun _ => hsources, h.drained, ?_⟩
  · rw [SendLoop.pending, hpc]
    exact hout
  · simp only [if_true]
    rw [hwriter]

/-- What is drained is put behind what is in the stash. -/
theorem Kept.drain_into (h : Kept codec count loop) {source : ℕ} {todo : List ℕ}
    (hpc : loop.pc = .drain (source :: todo))
    (hstep : World.Step loop.world (.act source .drain_into) world) :
    Kept codec count { loop with world, pc := .drain todo } := by
  have hpending := h.pending (by rw [hpc]; exact Pc.noConfusion)
  have hwriter := h.writer
  rw [if_neg (by rw [hpc]; exact Pc.noConfusion)] at hwriter
  refine ⟨h.world.step hstep, (length_of_step hstep).trans h.length,
    fun _ other hother hout => World.Completed.step (hpending other hother ?_) hstep,
    fun hresting => hresting.elim, fun hfinished => (by cases hfinished), fun other s' hs' => ?_,
    hwriter⟩
  · rw [SendLoop.pending, hpc]
    exact hout
  · cases hstep with
    | quiet _ hquiet => cases hquiet
    | @drain_into _ s hs _ =>
      by_cases hsame : other = source
      · subst hsame
        rw [List.getElem?_set_self (List.getElem?_eq_some_iff.mp hs).1] at hs'
        have hdrained := h.drained other s hs
        rw [← Option.some.inj hs']
        simp only [State.drain_into, stashed_for, written_for] at hdrained ⊢
        rw [hdrained, List.filter_append, List.map_append, contents_append, List.append_assoc]
        simp [List.filter_map, Function.comp_def]
      · rw [List.getElem?_set_ne (Ne.symm hsame)] at hs'
        have hdrained := h.drained other s' hs'
        simp only [stashed_for, written_for] at hdrained ⊢
        rw [hdrained, List.filter_append, List.map_append, contents_append]
        have hnone : ((s.queue.map fun bytes => (source, bytes)).filter (·.1 = other)) = [] := by
          simp [List.filter_eq_nil_iff, Ne.symm hsame]
        simp [hnone]

/-- What is written is taken out of the stash. -/
theorem Kept.write (h : Kept codec count loop) {source : ℕ} {bytes : Bytes}
    {stash : List (ℕ × Bytes)} (hpc : loop.pc = .write)
    (hstash : loop.world.stash = (source, bytes) :: stash)
    (hstep : World.Step loop.world .write world) :
    Kept codec count { loop with
      world
      writer := loop.writer ++ bytes.deref loop.world.memory
      chunks := loop.chunks ++ [(source, bytes.deref loop.world.memory)] } := by
  have hpending := h.pending (by rw [hpc]; exact Pc.noConfusion)
  have hwriter := h.writer
  rw [if_neg (by rw [hpc]; exact Pc.noConfusion), List.append_nil] at hwriter
  refine ⟨h.world.step hstep, (length_of_step hstep).trans h.length,
    fun _ other hother hout => World.Completed.step (hpending other hother ?_) hstep,
    fun hresting => ?_, fun hfinished => ?_, fun other s' hs' => ?_, ?_⟩
  · rw [SendLoop.pending, hpc] at hout ⊢
    exact hout
  · rw [hpc] at hresting
    exact hresting.elim
  · rw [hpc] at hfinished
    cases hfinished
  · cases hstep with
    | @write source' bytes' stash' hstash' =>
      rw [hstash] at hstash'
      obtain ⟨heq, rfl⟩ := List.cons.inj hstash'
      obtain ⟨rfl, rfl⟩ := Prod.mk.inj heq
      have hdrained := h.drained other s' hs'
      have hrest : contents (bytes.drop loop.world.memory)
          ((stash.filter (·.1 = other)).map Prod.snd)
          = contents loop.world.memory ((stash.filter (·.1 = other)).map Prod.snd) :=
        contents_congr fun b _ => Owned.deref_drop
      simp only [stashed_for, written_for, hstash] at hdrained ⊢
      rw [hdrained, hrest, List.filter_append, List.flatMap_append, List.append_assoc]
      by_cases hsame : source = other
      · simp [hsame]
      · simp [hsame]
  · rw [hpc, if_neg Pc.noConfusion, List.append_nil, List.flatMap_append, hwriter]
    simp

/-- Steps of the loop alone that leave the pending sources as they are. -/
theorem Kept.turn (h : Kept codec count loop) {pc : Pc} {sources : List ℕ}
    (hbefore : loop.pc ≠ .finished) (hafter : pc ≠ .finished) (hrunning : loop.pc ≠ .panicked)
    (hpending : ({ loop with pc, sources } : SendLoop).pending = loop.pending)
    (hresting : Resting pc → loop.world.stash = []) :
    Kept codec count { loop with pc, sources } := by
  refine h.control hbefore hafter (fun _ source hsource hout => ?_) hresting
  rw [hpending] at hout
  exact h.pending hrunning source hsource hout

/-- Calls on a source that change nothing for the loop. -/
theorem Kept.call (h : Kept codec count loop) (hstep : World.Step loop.world event world)
    (hevent : event.stash_kept = true) : Kept codec count { loop with world } :=
  h.aside hstep hevent Iff.rfl
    (fun hrunning source hsource hout => (h.pending hrunning source hsource hout).step hstep) id

theorem Kept.step {label : Option Event} (h : Kept codec count loop)
    (hstep : Step codec loop label loop') : Kept codec count loop' := by
  have hresting := h.resting
  cases hstep with
  | enter hpc _ =>
    refine h.turn (by simp [hpc]) (by simp) (by simp [hpc]) ?_ fun hresting => hresting.elim
    simp only [SendLoop.pending, hpc]
  | leave hpc hsources => exact h.leave hpc hsources
  | begin_drain _ hworld => exact h.call hworld rfl
  | drain_into hpc hworld => exact h.drain_into hpc hworld
  | busy hpc _ =>
    refine h.turn (by simp [hpc]) (by simp) (by simp [hpc]) ?_ fun hresting => hresting.elim
    simp only [SendLoop.pending, hpc]
  | idle hpc hstash =>
    refine h.turn (by simp [hpc]) (by simp) (by simp [hpc]) ?_ fun _ => hstash
    simp only [SendLoop.pending, hpc, List.nil_append]
  | write hpc hstash hworld => exact h.write hpc hstash hworld
  | written hpc hstash =>
    refine h.turn (by simp [hpc]) (by simp) (by simp [hpc]) ?_ fun _ => hstash
    simp only [SendLoop.pending, hpc]
  | ask _ hact hworld =>
    refine h.call hworld ?_
    rcases hact with rfl | rfl <;> rfl
  | incomplete hpc hworld =>
    refine h.aside hworld rfl (by simp [hpc]) (fun _ source hsource hout => ?_)
      fun _ => by rw [hpc]; trivial
    refine (h.pending (by simp [hpc]) source hsource ?_).step hworld
    simpa [SendLoop.pending, hpc] using hout
  | @complete source kept todo _ hpc hworld =>
    refine h.aside hworld rfl (by simp [hpc]) (fun _ other hother hout => ?_)
      fun _ => by rw [hpc]; trivial
    -- the source that is left out is complete
    by_cases hsame : other = source
    · rw [hsame]
      exact h.world.completed hworld
    · refine (h.pending (by simp [hpc]) other hother ?_).step hworld
      simpa [SendLoop.pending, hpc, hsame] using hout
  | drop _ hworld => exact h.call hworld rfl
  | dropped hpc hworld =>
    refine h.aside hworld rfl (by simp [hpc]) (fun _ source hsource hout => ?_)
      fun _ => by rw [hpc]; trivial
    refine (h.pending (by simp [hpc]) source hsource ?_).step hworld
    simpa [SendLoop.pending, hpc] using hout
  | @retained kept hpc =>
    have hstash : loop.world.stash = [] := hresting (by rw [hpc]; trivial)
    refine h.turn (by simp [hpc]) ?_ (by simp [hpc]) ?_ fun _ => hstash
    · by_cases hkept : kept = []
      · simp [hkept]
      · simp [hkept]
    · by_cases hkept : kept = []
      · simp [SendLoop.pending, hpc, hkept]
      · simp [SendLoop.pending, hpc, hkept]
  | unpark hpc =>
    refine h.turn (by simp [hpc]) (by simp) (by simp [hpc]) ?_ fun _ =>
      hresting (by rw [hpc]; trivial)
    simp only [SendLoop.pending, hpc]
  | panic hpc =>
    exact h.control hpc (by simp) (fun hrunning => absurd rfl hrunning) fun hresting =>
      hresting.elim
  | unwind _ hact hworld =>
    refine h.call hworld ?_
    rcases hact with rfl | rfl <;> rfl
  | @others event _ hevent hworld =>
    refine h.call hworld ?_
    cases event with
    | act index act => cases act <;> first | rfl | cases hevent
    | elsewhere => rfl
    | write => cases hevent
    | consume => cases hevent

theorem Kept.run {memory : Memory} {held : List Bytes} {labels : List (Option Event)}
    (hheld : Owned memory held)
    (hrun : Library.Run (Step codec) (start memory held count) labels loop) :
    Kept codec count loop :=
  hrun.invariant (P := fun _ loop => Kept codec count loop) (start_kept hheld count)
    fun hkept hstep => hkept.step hstep

/-- When the loop has finished, all sources were complete, and all of their bytes are written. -/
theorem Kept.finish (h : Kept codec count loop) (hpc : loop.pc = .finished) :
    (∀ source < count, ∃ s, loop.world.queues[source]? = some s ∧ s.producer = .dropped ∧
      s.drained_bytes = s.extended_bytes ∧ loop.written_for source = s.extended_bytes) ∧
    loop.world.stash = [] ∧
    loop.writer = loop.chunks.flatMap Prod.snd ++ codec.encode final_header := by
  have hstash : loop.world.stash = [] := h.resting (by rw [hpc]; trivial)
  have hwriter := h.writer
  rw [if_pos hpc] at hwriter
  refine ⟨fun source hsource => ?_, hstash, hwriter⟩
  have hout : source ∉ loop.pending := by
    rw [SendLoop.pending, hpc, h.finished hpc]
    exact List.not_mem_nil
  obtain ⟨s, hs, hcomplete⟩ := h.pending (by rw [hpc]; exact Pc.noConfusion) source hsource hout
  have hdrained := h.drained source s hs
  have hbytes := (h.world.queues s (List.mem_of_getElem? hs)).bytes
  rw [stashed_for, hstash] at hdrained
  rw [hcomplete.queue] at hbytes
  simp only [List.filter_nil, List.map_nil, contents_nil, List.append_nil] at hdrained hbytes
  exact ⟨s, hs, hcomplete.producer, hbytes.symm, by rw [hbytes, hdrained]⟩

/-- Queues keep what they are extended with.  In every run of the parties, the bytes that were
    drained are a prefix of these, and the same when the queue is empty; only adjacent slices of
    one allocation are merged; and a queue that was found to be complete has no producer and
    nothing that was not drained.  So the loop has written everything when it has finished. -/
theorem queues_keep_bytes :
    (∀ (memory : Memory) (held : List Bytes) (count : ℕ) (events : List Event) (world : World),
      Owned memory held → Library.Run World.Step (World.start memory held count) events world →
      (∀ s ∈ world.queues, s.drained_bytes <+: s.extended_bytes ∧
        (s.queue = [] → s.drained_bytes = s.extended_bytes) ∧
        Merged s.extended (s.drained ++ s.queue)) ∧
      ∀ index, Event.act index (.is_complete true) ∈ events → ∃ s, world.queues[index]? = some s ∧
        s.producer = .dropped ∧ s.drained_bytes = s.extended_bytes) ∧
    ∀ (codec : Codec) (memory : Memory) (held : List Bytes) (count : ℕ)
      (labels : List (Option Event)) (loop : SendLoop), Owned memory held →
      Library.Run (Step codec) (start memory held count) labels loop → loop.pc = .finished →
      (∀ source < count, ∃ s, loop.world.queues[source]? = some s ∧ s.producer = .dropped ∧
        s.drained_bytes = s.extended_bytes ∧ loop.written_for source = s.extended_bytes) ∧
      loop.world.stash = [] ∧
      loop.writer = loop.chunks.flatMap Prod.snd ++ codec.encode final_header := by
  refine ⟨fun memory held count events world hheld hrun => ?_,
    fun codec memory held count labels loop hheld hrun => (Kept.run hheld hrun).finish⟩
  obtain ⟨hkept, hcompleted⟩ := World.drained_of_run hheld hrun
  have hempty : ∀ s ∈ world.queues, s.queue = [] → s.drained_bytes = s.extended_bytes := by
    intro s hs hqueue
    rw [(hkept.queues s hs).bytes, hqueue, contents_nil, List.append_nil]
  refine ⟨fun s hs => ⟨?_, hempty s hs, (hkept.queues s hs).merged⟩, fun index hmem => ?_⟩
  · rw [(hkept.queues s hs).bytes]
    exact List.prefix_append _ _
  · obtain ⟨s, hs, hcomplete⟩ := hcompleted index hmem
    exact ⟨s, hs, hcomplete.producer, hempty s (List.mem_of_getElem? hs) hcomplete.queue⟩

/-! ### Two slices that are merged, and sent -/

/-- An allocation of three bytes, in two slices. -/
def allocation : Memory := ⟨[⟨[1, 2, 3], 2⟩]⟩

def slices : List Bytes := [⟨0, 2, 0⟩, ⟨2, 1, 0⟩]

theorem slices_owned : Owned allocation slices := by
  have hwhole := Owned.nil.from_allocation [1, 2, 3]
  exact @Owned.extract_to _ [] _ 2 allocation ⟨0, 2, 0⟩ ⟨2, 1, 0⟩ hwhole rfl

/-- What the parties of the queue do, and the loop between. -/
def sending : List (Option Event) :=
  [none, some (.act 0 .begin_drain), some (.act 0 .begin_extend),
    some (.act 0 (.extend [⟨0, 2, 0⟩, ⟨2, 1, 0⟩])), some (.act 0 .drain_into), none, some .write, none,
    none, some (.act 0 .begin_drain), some (.act 0 .drain_into), some (.act 0 (.drop_producer false)),
    some (.act 0 .producer_dropped), none, some (.act 0 .begin_complete), some (.act 0 .strong_count),
    some (.act 0 (.is_complete true)), some (.act 0 (.drop_consumer false)),
    some (.act 0 .consumer_dropped), none, none]

theorem sending_run : ∃ loop, Library.Run (Step Codec.memory) (start allocation slices 1) sending loop ∧
    loop.pc = .finished ∧ loop.chunks = [(0, [1, 2, 3])] := by
  have hothers : ∀ act : Act, act.by_producer = true → (Event.act 0 act).by_others = true :=
    fun _ h => h
  have hstart : Library.Run (Step Codec.memory) (start allocation slices 1) [] _ := Library.Run.nil
  have hdrained := ((((hstart.snoc (.enter rfl (by decide))).snoc
    (.begin_drain rfl (.quiet rfl (.begin_drain rfl rfl)))).snoc
    (.others (hothers .begin_extend rfl) (.quiet rfl (.begin_extend rfl rfl)))).snoc
    (.others (hothers (.extend slices) rfl) (.extend rfl rfl (List.Perm.refl (slices ++ []))))).snoc
    (.drain_into rfl (.drain_into rfl rfl))
  have hwritten := (((hdrained.snoc (.busy rfl (by decide))).snoc
    (.write rfl rfl (.write rfl))).snoc (.written rfl rfl)).snoc (.enter rfl (by decide))
  have hdropped := (((hwritten.snoc (.begin_drain rfl (.quiet rfl (.begin_drain rfl rfl)))).snoc
    (.drain_into rfl (.drain_into rfl rfl))).snoc
    (.others (hothers (.drop_producer false) rfl) (.quiet rfl (.drop_producer rfl (Or.inr rfl))))).snoc
    (.others (hothers .producer_dropped rfl) (.quiet rfl (.producer_dropped rfl)))
  have hcomplete := (((hdropped.snoc (.idle rfl rfl)).snoc
    (.ask rfl (Or.inl rfl) (.quiet rfl (.begin_complete rfl rfl)))).snoc
    (.ask rfl (Or.inr rfl) (.quiet rfl (.alone rfl rfl)))).snoc
    (.complete rfl (.quiet rfl (.is_empty rfl)))
  have hfinished := (((hcomplete.snoc (.drop rfl (.quiet rfl (.drop_consumer rfl (Or.inr rfl))))).snoc
    (.dropped rfl (.quiet rfl (.consumer_dropped rfl)))).snoc (.retained rfl)).snoc (.leave rfl rfl)
  exact ⟨_, hfinished, rfl, rfl⟩

theorem queues_keep_bytes_example :
    (∃ world, Library.Run World.Step (World.start allocation slices 1)
        [.act 0 .begin_extend, .act 0 (.extend slices), .act 0 .begin_drain, .act 0 .drain_into] world ∧
      (world.queues.map State.drained = [[⟨0, 3, 0⟩]]) ∧
      ∀ s ∈ world.queues, s.drained_bytes <+: s.extended_bytes ∧
        (s.queue = [] → s.drained_bytes = s.extended_bytes) ∧
        Merged s.extended (s.drained ++ s.queue)) ∧
    ∃ loop, Library.Run (Step Codec.memory) (start allocation slices 1) sending loop ∧
      loop.writer = [1, 2, 3] ++ Codec.memory.encode final_header ∧
      ∀ source < 1, ∃ s, loop.world.queues[source]? = some s ∧ s.producer = .dropped ∧
        s.drained_bytes = s.extended_bytes ∧ loop.written_for source = s.extended_bytes := by
  refine ⟨?_, ?_⟩
  · have hstart : Library.Run World.Step (World.start allocation slices 1) [] _ := Library.Run.nil
    have hrun := (((hstart.snoc (@World.Step.quiet _ 0 _ _ _ rfl (.begin_extend rfl rfl))).snoc
      (@World.Step.extend _ 0 slices _ _ rfl rfl (List.Perm.refl (slices ++ [])))).snoc
      (@World.Step.quiet _ 0 _ _ _ rfl (.begin_drain rfl rfl))).snoc
      (@World.Step.drain_into _ 0 _ rfl rfl)
    exact ⟨_, hrun, by decide, (queues_keep_bytes.1 _ _ _ _ _ slices_owned hrun).1⟩
  · obtain ⟨loop, hrun, hpc, hchunks⟩ := sending_run
    obtain ⟨hsources, -, hwriter⟩ :=
      queues_keep_bytes.2 Codec.memory _ _ _ _ _ slices_owned hrun hpc
    rw [hchunks] at hwriter
    exact ⟨loop, hrun, hwriter, hsources⟩

end SendLoop

end SharedQueue

end Timely.Network
