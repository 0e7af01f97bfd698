/-
  Timely/Fpga/Wrapper.lean
  ========================
  **The operator that runs its ghosts on a device**
  (`timely/src/dataflow/operators/fpga_wrapper.rs`, `raw_logic`).

  Each message that the wrapper pulls goes to the device in a frame, behind the frontiers
  of the ghosts; without messages the frame has frontiers only.  A reply that comes in time
  holds the records the last ghost produced, and the progress counters of all ghosts, which
  are added to the progress that the wrapper shares with its parent.
-/
import Timely.Pushers
import Timely.Subgraph

set_option linter.unusedSectionVars false

namespace Timely.Fpga

open Library

/-- A machine word, `u64` or `i64`. -/
abbrev Word := BitVec 64

/-- The timestamps of the scope. -/
abbrev Time := Unsigned 64

/-- What the device reads and what it writes: four lines of eight words. -/
abbrev Frame := Vector Word 32

theorem time_index_lt : 1 < 32 := by decide

/-- The second word of a frame is its time. -/
def time_word (frame : Frame) : Word := frame.get ⟨1, time_index_lt⟩

/-! ### The state of the wrapper -/

/-- What `raw_logic` keeps between its calls.  `hc` is the state of the device. -/
structure FpgaOperator (H : Type) where
  ghost_indexes : List (ℕ × ℕ)
  frontier : List (MutableAntichain Time)
  started : Bool
  incomplete : Bool
  n_sent : ℕ
  n_received : ℕ
  output_wrapper : Buffer Time Word
  hc : H
  indexed : ghost_indexes.map Prod.fst = List.range ghost_indexes.length
  distinct : (ghost_indexes.map Prod.snd).Nodup
  announced : frontier.length = ghost_indexes.length
  settled : ∀ antichain ∈ frontier, antichain.Settled

/-- The variables of one call of `raw_logic`. -/
structure Scheduling (H : Type) where
  operator : FpgaOperator H
  progress : SharedProgress Time
  input_vector : List Word
  vector2 : List Word

/-- What a reply says of one ghost. -/
structure Counters where
  consumed : ℤ
  produced : ℤ
  internal_time : Time
  internal_update : ℤ

/-- The wrapper of the given ghosts, each with its index. -/
def FpgaOperator.new {H : Type} (ghosts : List ℕ) (hdistinct : ghosts.Nodup) (hc : H) :
    FpgaOperator H where
  ghost_indexes := ghosts.zipIdx.map Prod.swap
  frontier := List.replicate ghosts.length MutableAntichain.new
  started := false
  incomplete := false
  n_sent := 0
  n_received := 0
  output_wrapper := Buffer.new Counter.new
  hc := hc
  indexed := by simp [List.zipIdx_map_snd, Function.comp_def, ← List.range_eq_range']
  distinct := by simpa [Function.comp_def] using hdistinct
  announced := by simp
  settled _ hmem := by
    rw [List.eq_of_mem_replicate hmem]
    exact MutableAntichain.settled_new

/-! ### Building frames -/

/-- Shift a value left and mark it as present. -/
def encode (val : Word) : Word := (val <<< 1) ||| 1

/-- A frame under construction, with the lengths that are counted along. -/
structure Building where
  input_vector : List Word
  current_length : ℕ
  progress_start_index : ℕ

namespace Building

def push (building : Building) (word : Word) : Building :=
  { building with
    input_vector := building.input_vector ++ [word]
    current_length := building.current_length + 1 }

/-- Push a word in front of the counters of the ghosts. -/
def push_header (building : Building) (word : Word) : Building :=
  { building.push word with progress_start_index := building.progress_start_index + 1 }

/-- Push zeros up to the given length. -/
def pad (building : Building) (length : ℕ) : Building :=
  (List.replicate (length - building.current_length) 0).foldl push building

/-- The frontier of a ghost: its elements, or a zero when it is empty. -/
def push_frontier (building : Building) (antichain : MutableAntichain Time) : Building :=
  if antichain.frontier.length = 0 then building.push_header 0
  else antichain.frontier.foldl (fun building val => building.push_header (encode (BitVec.ofFin val)))
    building

/-- Room for the counters of a ghost. -/
def push_counters (building : Building) (_ghost : ℕ × ℕ) : Building :=
  (((building.push 0).push 0).push 0).push 0

end Building

section Frames

variable {H : Type}

def info_length : ℕ := 24

def all_length : Word := 4

def max_length : ℕ := 32

def data_start_index : ℕ := 24

/-- The length, a time, the frontiers and the room for the counters, behind what
    `input_vector` holds already. -/
def header (operator : FpgaOperator H) (time : Word) (input_vector : List Word) : Building :=
  let start : Building := ⟨input_vector, 0, 0⟩
  operator.ghost_indexes.foldl Building.push_counters
    (operator.frontier.foldl Building.push_frontier
      ((start.push_header all_length).push_header time))

/-- The frame for a message: its records follow the header. -/
def message_frame (operator : FpgaOperator H) (message : Message Time Word)
    (input_vector : List Word) : Building :=
  let info := (header operator (BitVec.ofFin message.time) input_vector).pad info_length
  let data :=
    if message.data.length = 0 then info.push 0
    else message.data.foldl (fun building val => building.push (encode val)) info
  data.pad max_length

/-- The frame when there is no message: its time is zero. -/
def empty_frame (operator : FpgaOperator H) (input_vector : List Word) : Building :=
  (header operator 0 input_vector).pad max_length

/-- What the device reads, from the start of the vector. -/
def read_frame (input_vector : List Word) : Frame := Vector.ofFn fun index => input_vector.getD index 0

/-- The records of a frame: the words that are not zero, shifted back. -/
def decode (output : Frame) : List Word :=
  ((output.toList.drop data_start_index).filter (· ≠ 0)).map fun val : Word => val >>> 1

/-- The counters of the ghost with the given index; `none` beyond the end of the frame. -/
def read_counters (output : Frame) (progress_start_index index : ℕ) : Option Counters := do
  let consumed ← output[progress_start_index + 4 * index]?
  let internal_time ← output[progress_start_index + 4 * index + 2]?
  let internal_update ← output[progress_start_index + 4 * index + 3]?
  let produced ← output[progress_start_index + 4 * index + 1]?
  some ⟨consumed.toInt, produced.toInt, (internal_time.sshiftRight 1).toFin, internal_update.toInt⟩

/-- The counters of all ghosts. -/
def read_all_counters (output : Frame) (progress_start_index : ℕ) (ghost_indexes : List (ℕ × ℕ)) :
    Option (AList fun _ : ℕ => Counters) :=
  ghost_indexes.foldlM (fun counters ghost =>
    (read_counters output progress_start_index ghost.1).map fun counter =>
      counters.insert ghost.2 counter) ∅

end Frames

/-! ### The first batch of a ghost -/

section Ghosts

variable {T : Type} [PartialOrder T] [DecidableEq T] [Ord T] [LinearExtension T]

/-- Drain the first batch of a ghost: its changes, and what this leaves. -/
def drain_ghost (batches : AList fun _ : ℕ => List (ChangeBatch T)) (ghost : ℕ) :
    Option (List (T × ℤ) × AList fun _ : ℕ => List (ChangeBatch T)) :=
  match batches.lookup ghost with
  | some (first :: rest) => some (first.drain.1, batches.insert ghost (first.drain.2 :: rest))
  | _ => none

/-- Update the first batch of a ghost. -/
def update_ghost (batches : AList fun _ : ℕ => List (ChangeBatch T)) (ghost : ℕ) (time : T)
    (value : ℤ) : Option (AList fun _ : ℕ => List (ChangeBatch T)) :=
  match batches.lookup ghost with
  | some (first :: rest) => some (batches.insert ghost (first.update time value :: rest))
  | _ => none

/-- Drain a batch of a single entry into the first batch of a ghost. -/
def drain_into_ghost (batches : AList fun _ : ℕ => List (ChangeBatch T)) (ghost : ℕ) (time : T)
    (value : ℤ) : Option (AList fun _ : ℕ => List (ChangeBatch T)) :=
  match batches.lookup ghost with
  | some (first :: rest) =>
    some (batches.insert ghost (((ChangeBatch.new_from time value).drain_into first).2 :: rest))
  | _ => none

end Ghosts

/-! ### Talking to the device -/

section Logic

variable {H : Type} (send_input_and_check : H → Frame → Option Frame × H)

/-- Count a frame that was sent, and whether a reply was received. -/
def FpgaOperator.count (operator : FpgaOperator H) (received : ℕ) (hc : H) : FpgaOperator H :=
  { operator with
    hc := hc
    n_sent := operator.n_sent + 1
    n_received := operator.n_received + received
    incomplete := decide (operator.n_sent + 1 ≠ operator.n_received + received) }

/-- Send a frame, and read the reply if one comes in time. -/
def exchange (building : Building) (state : Scheduling H) :
    Option (Scheduling H × Option (Frame × AList fun _ : ℕ => Counters)) :=
  match send_input_and_check state.operator.hc (read_frame building.input_vector) with
  | (none, hc) =>
    some
      ({ state with
          operator := state.operator.count 0 hc
          input_vector := building.input_vector },
        none)
  | (some output, hc) =>
    (read_all_counters output building.progress_start_index state.operator.ghost_indexes).map
      fun counters =>
        ({ state with
            operator := state.operator.count 1 hc
            input_vector := building.input_vector
            vector2 := state.vector2 ++ decode output },
          some (output, counters))

/-! ### Crediting the ghosts -/

/-- Output the records of a reply, and credit the last ghost for them. -/
def credit_records (id_window : ℕ) (counters : AList fun _ : ℕ => Counters)
    (state : Scheduling H) : Option (Scheduling H) := do
  let counter ← counters.lookup id_window
  let session := state.operator.output_wrapper.session counter.internal_time
  let produceds ← drain_into_ghost state.progress.wrapper_produceds id_window
    counter.internal_time counter.produced
  let internals ← drain_into_ghost state.progress.wrapper_internals id_window
    counter.internal_time counter.internal_update
  some
    { state with
      operator := { state.operator with output_wrapper := (session.give_vec state.vector2).buffer }
      progress :=
        { state.progress with wrapper_produceds := produceds, wrapper_internals := internals }
      vector2 := [] }

/-- Credit one ghost for what a reply without records says of it. -/
def credit_ghost (time : Time) (counters : AList fun _ : ℕ => Counters)
    (progress : SharedProgress Time) (ghost : ℕ × ℕ) : Option (SharedProgress Time) := do
  let counter ← counters.lookup ghost.2
  let consumeds ← drain_into_ghost progress.wrapper_consumeds ghost.2
    time counter.consumed
  let produceds ← drain_into_ghost progress.wrapper_produceds ghost.2
    time counter.produced
  let internals ← drain_into_ghost progress.wrapper_internals ghost.2
    counter.internal_time counter.internal_update
  some
    { progress with
      wrapper_consumeds := consumeds
      wrapper_produceds := produceds
      wrapper_internals := internals }

/-- Use a reply, if there is one; the time is the one that replies without records are
    credited at. -/
def conclude (time : Frame → Time)
    (exchanged : Scheduling H × Option (Frame × AList fun _ : ℕ => Counters)) :
    Option (Scheduling H) := do
  let id_window ← exchanged.1.operator.ghost_indexes.getLast?
  match exchanged.2 with
  | none => some exchanged.1
  | some (output, counters) =>
    if 0 < exchanged.1.vector2.length then credit_records id_window.2 counters exchanged.1
    else
      (exchanged.1.operator.ghost_indexes.foldlM (credit_ghost (time output) counters)
        exchanged.1.progress).map fun progress => { exchanged.1 with progress := progress }

/-- Process a message: a reply without records is credited at the time of the message. -/
def on_message (state : Scheduling H) (message : Message Time Word) : Option (Scheduling H) :=
  (exchange send_input_and_check (message_frame state.operator message state.input_vector)
    state).bind (conclude fun _ => message.time)

/-- There is no message: a reply without records is credited at the time in the reply. -/
def on_no_data (state : Scheduling H) : Option (Scheduling H) :=
  (exchange send_input_and_check (empty_frame state.operator state.input_vector) state).bind
    (conclude fun output => (time_word output).toFin)

/-! ### One scheduling -/

/-- Take the changes of the frontier of a ghost. -/
def accept_changes (state : FpgaOperator H × SharedProgress Time) (ghost : ℕ × ℕ) :
    Option (FpgaOperator H × SharedProgress Time) :=
  (drain_ghost state.2.wrapper_frontiers ghost.2).map fun drained =>
    ({ state.1 with
        frontier := state.1.frontier.modify ghost.1 fun antichain =>
          (antichain.update_iter drained.1).2
        announced := (List.length_modify _ _ _).trans state.1.announced
        settled := by
          intro antichain hmem
          obtain ⟨index, hindex⟩ := List.mem_iff_getElem?.mp hmem
          rw [List.getElem?_modify] at hindex
          obtain ⟨before, hbefore, rfl⟩ := Option.map_eq_some_iff.mp hindex
          have hsettled := state.1.settled before (List.mem_of_getElem? hbefore)
          split
          · exact (hsettled.update_iter drained.1).settled
          · exact hsettled },
      { state.2 with wrapper_frontiers := drained.2 })

/-- Discard the initial capability of a ghost. -/
def discard_initial (state : FpgaOperator H × SharedProgress Time) (ghost : ℕ × ℕ) :
    Option (FpgaOperator H × SharedProgress Time) :=
  (update_ghost state.2.wrapper_internals ghost.2 0 (-1)).map fun internals =>
    ({ state.1 with started := true }, { state.2 with wrapper_internals := internals })

/-- What precedes the messages. -/
def prepare (operator : FpgaOperator H) (progress : SharedProgress Time) :
    Option (Scheduling H) := do
  let accepted ← operator.ghost_indexes.foldlM accept_changes (operator, progress)
  let started ←
    if accepted.1.started then some accepted
    else operator.ghost_indexes.foldlM discard_initial accepted
  some ⟨started.1, started.2, [], []⟩

/-- One scheduling of the wrapper, in which the input gives the listed messages. -/
def raw_logic (operator : FpgaOperator H) (progress : SharedProgress Time)
    (messages : List (Message Time Word)) : Option (Bool × FpgaOperator H × SharedProgress Time) := do
  let prepared ← prepare operator progress
  let pulled ← messages.foldlM (on_message send_input_and_check) prepared
  let served ← if messages.isEmpty then on_no_data send_input_and_check pulled else some pulled
  some (false, { served.operator with output_wrapper := served.operator.output_wrapper.cease },
    served.progress)

end Logic

end Timely.Fpga
