/-
  Timely/Fpga/Frames.lean
  =======================
  **Which messages the frames encode** (`fpga_wrapper.rs`, `raw_logic`).

  All messages of one scheduling are pushed to one vector, and the device reads from its
  start: every frame is the frame of the first message.  A frame has room for eight records,
  of which it drops the highest bit.
-/
import Timely.Fpga.Steps

set_option linter.unusedSectionVars false

namespace Timely.Fpga

open Library

variable {H : Type} {send_input_and_check : H → Frame → Option Frame × H}

/-! ### Encoding one message -/

theorem encode_ne_zero (val : Word) : encode val ≠ 0 := by
  intro h
  have hbit : (encode val).getLsbD 0 = true := by simp [encode]
  rw [h] at hbit
  simp at hbit

/-- The shift loses the highest bit. -/
theorem encode_shift_eq_iff (val : Word) : encode val >>> 1 = val ↔ val.toNat < 2 ^ 63 := by
  have hmsb : val.getLsbD 63 = decide (2 ^ 63 ≤ val.toNat) := by
    have h := BitVec.msb_eq_decide val
    rwa [BitVec.msb_eq_getLsbD_last] at h
  constructor
  · intro h
    have hbit : (encode val >>> 1).getLsbD 63 = false := by simp [encode]
    rw [h, hmsb] at hbit
    simpa using hbit
  · intro h
    have hlast : val.getLsbD 63 = false := by
      rw [hmsb]
      simpa using h
    apply BitVec.eq_of_getLsbD_eq
    intro index hindex
    by_cases hend : index = 63
    · subst hend
      rw [hlast]
      simp [encode]
    · have hinside : index + 1 < 64 := by omega
      simp [encode, hinside, Nat.add_comm 1, BitVec.getLsbD_eq_getElem hindex]

theorem length_info_words {operator : FpgaOperator H} (h : operator.ghost_indexes.length ≤ 4)
    (message : Message Time Word) : (info_words operator message).length = data_start_index := by
  unfold info_words info_length data_start_index
  simp only [List.length_append, List.length_replicate, length_header_words]
  omega

theorem filter_payload (message : Message Time Word) (count : ℕ) :
    ((payload message).take count).filter (· ≠ 0) = (message.data.take count).map encode := by
  unfold payload
  split
  case isTrue hempty =>
    rw [List.length_eq_zero_iff.mp hempty]
    cases count <;> simp
  case isFalse =>
    rw [← List.map_take, List.filter_eq_self.mpr]
    intro word hword
    obtain ⟨val, _, rfl⟩ := List.mem_map.mp hword
    exact decide_eq_true (encode_ne_zero val)

/-- A frame carries the first eight records of its message, shifted there and back. -/
theorem decode_message_words {operator : FpgaOperator H} (h : operator.ghost_indexes.length ≤ 4)
    (message : Message Time Word) :
    decode (read_frame (message_words operator message)) =
      (message.data.take 8).map fun val => encode val >>> 1 := by
  have hlength := length_info_words h message
  have hrest : ((message_words operator message).take max_length).drop data_start_index =
      ((payload message) ++ List.replicate
        (max_length - (info_words operator message ++ payload message).length) 0).take 8 := by
    unfold message_words
    rw [List.drop_take, List.append_assoc, List.drop_left' hlength]
    rfl
  unfold decode
  rw [toList_read_frame (le_length_message_words operator message), hrest, List.take_append,
    List.filter_append, filter_payload, List.take_replicate, List.filter_replicate,
    if_neg (by simp), List.append_nil, List.map_map]
  rfl

theorem read_frame_time (operator : FpgaOperator H) (message : Message Time Word) :
    (time_word (read_frame (message_words operator message))).toFin = message.time := by
  have hword : (message_words operator message)[1]? = some (BitVec.ofFin message.time) := rfl
  rw [time_word_read_frame hword]

/-! ### One scheduling -/

/-- The words that are pushed for a request. -/
def request_words (operator : FpgaOperator H) : Option (Message Time Word) → List Word
  | some message => message_words operator message
  | none =>
    header_words operator 0 ++
      List.replicate (max_length - (header_words operator 0).length) 0

theorem input_vector_frame_for (state : Scheduling H) (request : Option (Message Time Word)) :
    (frame_for state request).input_vector =
      state.input_vector ++ request_words state.operator request := by
  cases request with
  | none => exact (empty_frame_eq _ _).1
  | some message => exact (message_frame_eq _ _ _).1

theorem le_length_request_words (operator : FpgaOperator H) (request : Option (Message Time Word)) :
    max_length ≤ (request_words operator request).length := by
  cases request with
  | some message => exact le_length_message_words operator message
  | none =>
    unfold request_words
    rw [List.length_append, List.length_replicate]
    omega

/-- The frame that the device reads in an exchange. -/
def Exchange.frame (exchange : Exchange H) : Frame :=
  read_frame (frame_for exchange.state exchange.request).input_vector

/-- The words of the first request stand at the start of the vector. -/
def StartsWith (words : List Word) (state : Scheduling H) : Prop :=
  Ready state ∧ ∃ more, state.input_vector = words ++ more

theorem StartsWith.step {words : List Word} {state after : Scheduling H}
    (h : StartsWith words state) {request : Option (Message Time Word)}
    (hon : on_request send_input_and_check state request = some after) : StartsWith words after := by
  obtain ⟨hready, more, hmore⟩ := h
  have hexchanged := exchanged_of_on_request hready hon
  refine ⟨hexchanged.ready, more ++ request_words state.operator request, ?_⟩
  rw [hexchanged.input_vector, input_vector_frame_for, hmore, List.append_assoc]

/-- In one scheduling the device reads the frame of the first request again and again. -/
theorem Serves.frame_eq {start last : Scheduling H} {first : Exchange H}
    {exchanges : List (Exchange H)}
    (h : Serves send_input_and_check start (first :: exchanges) last) (hready : Ready start)
    (hempty : start.input_vector = []) :
    ∀ exchange ∈ first :: exchanges,
      exchange.frame = read_frame (request_words start.operator first.request) := by
  cases h with
  | @cons _ after _ request _ hon hrest =>
    have hfirst : (frame_for start request).input_vector = request_words start.operator request := by
      rw [input_vector_frame_for, hempty, List.nil_append]
    have hafter : StartsWith (request_words start.operator request) after := by
      have hexchanged := exchanged_of_on_request hready hon
      refine ⟨hexchanged.ready, [], ?_⟩
      rw [hexchanged.input_vector, hfirst, List.append_nil]
    have hall := (hrest.invariant hafter fun hstate hon => hstate.step hon).1
    intro exchange hexchange
    unfold Exchange.frame
    rcases List.mem_cons.mp hexchange with rfl | hexchange
    · exact congrArg read_frame hfirst
    · obtain ⟨_, more, hmore⟩ := hall exchange hexchange
      rw [input_vector_frame_for, hmore, List.append_assoc,
        read_frame_append (le_length_request_words _ _)]

/-- A device that keeps the frames it has read. -/
def recorded (send_input_and_check : H → Frame → Option Frame × H) (hc : H × List Frame)
    (frame : Frame) : Option Frame × (H × List Frame) :=
  let replied := send_input_and_check hc.1 frame
  (replied.1, (replied.2, hc.2 ++ [frame]))

theorem Serves.recorded {start last : Scheduling (H × List Frame)}
    {exchanges : List (Exchange (H × List Frame))}
    (h : Serves (recorded send_input_and_check) start exchanges last) (hready : Ready start) :
    last.operator.hc.2 = start.operator.hc.2 ++ exchanges.map Exchange.frame := by
  induction h with
  | nil => exact (List.append_nil _).symm
  | cons hon _ ih =>
    have hexchanged := exchanged_of_on_request hready hon
    rw [ih hexchanged.ready, hexchanged.hc]
    simp [answer, Fpga.recorded, Exchange.frame]

/-! ### When frames encode the messages -/

/-- The frame carries the message: its time, and exactly its records. -/
def Carries (frame : Frame) (message : Message Time Word) : Prop :=
  (time_word frame).toFin = message.time ∧ decode frame = message.data

/-- Each message has its frame, and every record appears in some frame. -/
structure Encodes (frames : List Frame) (messages : List (Message Time Word)) : Prop where
  carries : ∀ (index : ℕ) (message : Message Time Word), messages[index]? = some message →
    ∃ frame, frames[index]? = some frame ∧ Carries frame message
  appears : ∀ message ∈ messages, ∀ val ∈ message.data, ∃ frame ∈ frames, val ∈ decode frame

/-- The messages that frames can encode: all the same, with at most eight records, of which
    none has its highest bit set. -/
structure Encodable (messages : List (Message Time Word)) : Prop where
  same : ∀ message ∈ messages, ∀ other ∈ messages, message = other
  short : ∀ message ∈ messages, message.data.length ≤ 8
  small : ∀ message ∈ messages, ∀ val ∈ message.data, val.toNat < 2 ^ 63

theorem carries_self_iff {operator : FpgaOperator H} (h : operator.ghost_indexes.length ≤ 4)
    (message : Message Time Word) :
    Carries (read_frame (message_words operator message)) message ↔
      message.data.length ≤ 8 ∧ ∀ val ∈ message.data, val.toNat < 2 ^ 63 := by
  unfold Carries
  rw [decode_message_words h, read_frame_time, eq_self, true_and]
  constructor
  · intro hdata
    have hshort : message.data.length ≤ 8 := by
      have hlength := congrArg List.length hdata
      rw [List.length_map, List.length_take] at hlength
      omega
    refine ⟨hshort, ?_⟩
    rw [List.take_of_length_le hshort] at hdata
    intro val hval
    exact (encode_shift_eq_iff val).mp
      (List.map_inj_left.mp (hdata.trans (List.map_id _).symm) val hval)
  · rintro ⟨hshort, hsmall⟩
    rw [List.take_of_length_le hshort]
    refine Eq.trans ?_ (List.map_id _)
    exact List.map_inj_left.mpr fun val hval => (encode_shift_eq_iff val).mpr (hsmall val hval)

/-- Frames that are all the frame of the first message encode the messages exactly where all
    messages are that one, and it fits. -/
theorem encodes_iff {operator : FpgaOperator H} (h : operator.ghost_indexes.length ≤ 4)
    {first : Message Time Word} {messages : List (Message Time Word)} {frames : List Frame}
    (hlength : frames.length = (first :: messages).length)
    (hframes : ∀ frame ∈ frames, frame = read_frame (message_words operator first)) :
    Encodes frames (first :: messages) ↔ Encodable (first :: messages) := by
  have hat : ∀ (index : ℕ) (message : Message Time Word), (first :: messages)[index]? = some message →
      frames[index]? = some (read_frame (message_words operator first)) := by
    intro index message hmessage
    have hindex : index < frames.length := by
      rw [hlength]
      exact (List.getElem?_eq_some_iff.mp hmessage).1
    rw [List.getElem?_eq_getElem hindex, hframes _ (List.getElem_mem hindex)]
  constructor
  · intro hencodes
    have hcarries : ∀ message ∈ first :: messages,
        Carries (read_frame (message_words operator first)) message := by
      intro message hmessage
      obtain ⟨index, hindex⟩ := List.mem_iff_getElem?.mp hmessage
      obtain ⟨frame, hframe, hcarried⟩ := hencodes.carries index message hindex
      obtain rfl := Option.some.inj ((hat index message hindex).symm.trans hframe)
      exact hcarried
    have hfirst := (carries_self_iff h first).mp (hcarries first (by simp))
    have hsame : ∀ message ∈ first :: messages, message = first := by
      intro message hmessage
      obtain ⟨htime, hdata⟩ := hcarries message hmessage
      obtain ⟨htime', hdata'⟩ := hcarries first (by simp)
      cases message
      cases first
      exact congrArg₂ Message.mk (htime.symm.trans htime') (hdata.symm.trans hdata')
    constructor
    · exact fun message hmessage other hother =>
        (hsame message hmessage).trans (hsame other hother).symm
    · exact fun message hmessage => hsame message hmessage ▸ hfirst.1
    · exact fun message hmessage => hsame message hmessage ▸ hfirst.2
  · intro hencodable
    have hfirst := (carries_self_iff h first).mpr
      ⟨hencodable.short first (by simp), hencodable.small first (by simp)⟩
    constructor
    · intro index message hmessage
      obtain rfl := hencodable.same message (List.mem_of_getElem? hmessage) first (by simp)
      exact ⟨_, hat index message hmessage, hfirst⟩
    · intro message hmessage val hval
      obtain rfl := hencodable.same message hmessage first (by simp)
      have hzero := hat 0 message rfl
      refine ⟨_, List.mem_of_getElem? hzero, ?_⟩
      rw [hfirst.2]
      exact hval

/-- For up to four ghosts, the frames that the device reads in a scheduling encode its messages
    exactly where the messages are all the same, with at most eight records below `2 ^ 63`. -/
theorem frames_encode_iff (send_input_and_check : H → Frame → Option Frame × H)
    {operator : FpgaOperator (H × List Frame)} {progress : SharedProgress Time}
    (hshaped : ShapedFor operator progress) (hghosts : operator.ghost_indexes ≠ [])
    (hfew : operator.ghost_indexes.length ≤ 4) (hnone : operator.hc.2 = [])
    (messages : List (Message Time Word)) :
    ∃ outcome, raw_logic (recorded send_input_and_check) operator progress messages = some outcome ∧
      (Encodes outcome.2.1.hc.2 messages ↔ Encodable messages) := by
  obtain ⟨start, exchanges, last, _, hprepared, hserves, hrequests, hlogic⟩ :=
    exists_scheduled (recorded send_input_and_check) hshaped hghosts (by omega) messages
  refine ⟨_, hlogic, ?_⟩
  have hframes : last.operator.hc.2 = exchanges.map Exchange.frame := by
    rw [hserves.recorded hprepared.ready, hprepared.prepares.hc, hnone, List.nil_append]
  have hcount : exchanges.length = (requests messages).length := by
    rw [← hrequests, List.length_map]
  dsimp only
  rw [hframes]
  cases messages with
  | nil =>
    constructor
    · intro _
      constructor <;> simp
    · intro _
      constructor <;> simp
  | cons first messages =>
    cases exchanges with
    | nil => cases hrequests
    | cons exchange exchanges =>
      have hfirst : exchange.request = some first := (List.cons.inj hrequests).1
      have hstart : start.operator.ghost_indexes.length ≤ 4 := by
        rwa [hprepared.prepares.ghost_indexes]
      refine encodes_iff hstart ?_ ?_
      · rw [List.length_map, hcount]
        simp [requests]
      · intro frame hframe
        obtain ⟨other, hother, rfl⟩ := List.mem_map.mp hframe
        rw [hserves.frame_eq hprepared.ready hprepared.input_vector other hother, hfirst]
        rfl

/-! ### An example -/

/-- A wrapper of three ghosts, as `fpga_wrapper` builds it. -/
def example_operator {H : Type} (hc : H) : FpgaOperator H := FpgaOperator.new [1, 2, 3] (by decide) hc

def example_progress : SharedProgress Time := SharedProgress.new_ghosts 1 1 [1, 2, 3]

/-- A reply in which the first ghost consumed one message, with or without a record. -/
def example_reply (val : Word) : Frame :=
  Vector.ofFn fun index => if index = 5 then 1 else if index = 24 then val else 0

/-- A device that never answers in time. -/
def silent (_ : Unit) (_ : Frame) : Option Frame × Unit := (none, ())

/-- Two messages in one scheduling: the second frame is the first again. -/
theorem second_message_not_encoded :
    ∃ outcome, raw_logic (recorded silent) (example_operator ((), [])) example_progress
        [⟨3, [5]⟩, ⟨4, [6]⟩] = some outcome ∧
      ¬ Encodes outcome.2.1.hc.2 [⟨3, [5]⟩, ⟨4, [6]⟩] := by
  have htimes : (raw_logic (recorded silent) (example_operator ((), [])) example_progress
      [⟨3, [5]⟩, ⟨4, [6]⟩]).map (fun outcome => outcome.2.1.hc.2.map fun frame => (time_word frame).toFin) =
        some [3, 3] := by decide
  obtain ⟨outcome, houtcome, htimes⟩ := Option.map_eq_some_iff.mp htimes
  refine ⟨outcome, houtcome, fun hencodes => ?_⟩
  obtain ⟨frame, hframe, htime, _⟩ := hencodes.carries 1 ⟨4, [6]⟩ rfl
  have hsecond := congrArg (fun times => times[1]?) htimes
  simp only [List.getElem?_map, hframe, Option.map_some, htime] at hsecond
  exact absurd hsecond (by decide)

theorem example_shaped {H : Type} (hc : H) : ShapedFor (example_operator hc) example_progress :=
  shapedFor_new _ hc 0 0

theorem frames_encode_iff_example :
    ∃ outcome, raw_logic (recorded silent) (example_operator ((), [])) example_progress
        [⟨3, [5, 7]⟩] = some outcome ∧ Encodes outcome.2.1.hc.2 [⟨3, [5, 7]⟩] := by
  obtain ⟨outcome, houtcome, hiff⟩ := frames_encode_iff silent
    (example_shaped ((), [])) (by decide) (by decide) rfl [⟨3, [5, 7]⟩]
  refine ⟨outcome, houtcome, hiff.mpr ⟨?_, ?_, ?_⟩⟩
  · simp
  · simp
  · simp

end Timely.Fpga
