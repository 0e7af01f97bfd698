/-
  Timely/Network/RecvLoop.lean
  ============================
  **Carving messages out of a byte stream** (`recv_loop` in
  `allocator/zero_copy/tcp.rs`).

  However a stream of messages is cut into reads, the loop takes off the valid
  bytes the messages that are complete, stages each for the worker it names, and
  keeps the bytes of the next one.  The stream ends with a header for no data.
-/
import Timely.Network.MessageHeader
import Mathlib.Logic.Function.Basic

set_option linter.unusedSectionVars false

namespace Timely.Network

/-- The header written at the end of a stream. -/
def final_header : MessageHeader := { channel := 0, source := 0, target := 0, length := 0, seqno := 0 }

namespace RecvLoop

/-- Messages staged for each target, in order. -/
abbrev Stageds := ℕ → List (List UInt8)

/-- `stageds[index].push(bytes)`. -/
def stage (stageds : Stageds) (index : ℕ) (bytes : List UInt8) : Stageds :=
  Function.update stageds index (stageds index ++ [bytes])

/-- Consumes complete messages from the front of the valid bytes.  The result is the bytes
    left, the staged messages, and whether the loop goes on; there is none where the code
    panics.  `ended` says that a read finds the end of the stream. -/
def carve (codec : Codec) (worker_offset threads : ℕ) (ended : Bool) (valid : List UInt8)
    (stageds : Stageds) (active : Bool) : Option (List UInt8 × Stageds × Bool) :=
  match MessageHeader.try_read codec valid with
  | none => some (valid, stageds, active)
  | some header =>
    let peeled_bytes := header.required_bytes
    if _hpeel : peeled_bytes ≤ valid.length then
      if header.length > 0 then
        -- the target is an index into `stageds`
        if worker_offset ≤ header.target.toNat ∧ header.target.toNat - worker_offset < threads then
          carve codec worker_offset threads ended (valid.drop peeled_bytes)
            (stage stageds (header.target.toNat - worker_offset) (valid.take peeled_bytes)) active
        else none
      else
        -- shutting down; no subsequent data
        if valid.drop peeled_bytes = [] ∧ ended then
          carve codec worker_offset threads ended (valid.drop peeled_bytes) stageds false
        else none
    else none
termination_by valid.length
decreasing_by
  all_goals
    simp only [peeled_bytes, MessageHeader.required_bytes, header_bytes] at _hpeel ⊢
    rw [List.length_drop]
    omega

/-- Messages staged one after the other. -/
def stage_all (codec : Codec) (worker_offset : ℕ) (stageds : Stageds) (frames : List Frame) :
    Stageds :=
  fun index => stageds index ++
    (frames.filter fun frame => frame.header.target.toNat = worker_offset + index).map
      (Frame.bytes codec)

variable {codec : Codec} {worker_offset threads : ℕ} {ended active : Bool}
  {valid rest later : List UInt8} {stageds : Stageds} {frame : Frame} {frames : List Frame}

theorem stage_all_nil : stage_all codec worker_offset stageds [] = stageds := by
  funext index
  simp [stage_all]

theorem stage_all_cons (hoffset : worker_offset ≤ frame.header.target.toNat) :
    stage_all codec worker_offset stageds (frame :: frames)
      = stage_all codec worker_offset
          (stage stageds (frame.header.target.toNat - worker_offset) (frame.bytes codec)) frames := by
  funext index
  by_cases hindex : index = frame.header.target.toNat - worker_offset
  · have htarget : frame.header.target.toNat = worker_offset + index := by omega
    have hpos : (frame :: frames).filter
        (fun frame => frame.header.target.toNat = worker_offset + index)
        = frame :: frames.filter (fun frame => frame.header.target.toNat = worker_offset + index) :=
      List.filter_cons_of_pos (decide_eq_true htarget)
    rw [stage_all, stage_all, hpos, stage, ← hindex, Function.update_self]
    simp
  · have htarget : ¬ frame.header.target.toNat = worker_offset + index := by omega
    have hneg : (frame :: frames).filter
        (fun frame => frame.header.target.toNat = worker_offset + index)
        = frames.filter (fun frame => frame.header.target.toNat = worker_offset + index) :=
      List.filter_cons_of_neg (by simpa using htarget)
    rw [stage_all, stage_all, hneg, stage, Function.update_of_ne hindex]

/-- The workers of a process that a target may be one of. -/
def InRange (worker_offset threads : ℕ) (frame : Frame) : Prop :=
  worker_offset ≤ frame.header.target.toNat ∧ frame.header.target.toNat < worker_offset + threads

/-! ### Whole messages are staged, and what follows is left -/

theorem carve_of_none (hread : MessageHeader.try_read codec valid = none) :
    carve codec worker_offset threads ended valid stageds active
      = some (valid, stageds, active) := by
  rw [carve, hread]

theorem carve_bytes (h : codec.Lawful) (hrange : InRange worker_offset threads frame)
    (rest : List UInt8) :
    carve codec worker_offset threads ended (frame.bytes codec ++ rest) stageds active
      = carve codec worker_offset threads ended rest
          (stage stageds (frame.header.target.toNat - worker_offset) (frame.bytes codec)) active := by
  obtain ⟨hoffset, hthreads⟩ := hrange
  have hlength : frame.header.required_bytes ≤ (frame.bytes codec ++ rest).length := by
    rw [List.length_append, Frame.length_bytes h]
    omega
  have hpos : frame.header.length > 0 := by
    rw [gt_iff_lt, UInt64.lt_iff_toNat_lt, frame.length_eq]
    exact frame.nonempty
  have htarget : worker_offset ≤ frame.header.target.toNat
      ∧ frame.header.target.toNat - worker_offset < threads := by omega
  rw [carve, Frame.try_read_bytes h]
  simp only [dif_pos hlength, if_pos hpos, if_pos htarget, Frame.drop_bytes h, Frame.take_bytes h]

theorem carve_stream (h : codec.Lawful) (hrange : ∀ frame ∈ frames, InRange worker_offset threads frame)
    (rest : List UInt8) :
    carve codec worker_offset threads ended (Frame.stream codec frames ++ rest) stageds active
      = carve codec worker_offset threads ended rest
          (stage_all codec worker_offset stageds frames) active := by
  induction frames generalizing stageds with
  | nil => rw [stage_all_nil, Frame.stream_nil, List.nil_append]
  | cons frame frames ih =>
    obtain ⟨hframe, hframes⟩ := List.forall_mem_cons.mp hrange
    rw [Frame.stream_cons, List.append_assoc, carve_bytes h hframe, ih hframes,
      stage_all_cons hframe.1]

theorem try_read_nil (h : codec.Lawful) : MessageHeader.try_read codec [] = none := by
  rw [MessageHeader.try_read, h.decode_short [] (by decide)]
  rfl

/-- The end of the stream ends the loop. -/
theorem carve_final (h : codec.Lawful) (hended : ended = true) :
    carve codec worker_offset threads ended (codec.encode final_header) stageds active
      = some ([], stageds, false) := by
  have hread : MessageHeader.try_read codec (codec.encode final_header) = some final_header := by
    have hdecode := h.decode_encode final_header []
    rw [List.append_nil] at hdecode
    rw [MessageHeader.try_read, hdecode]
    rfl
  have hlength : (codec.encode final_header).length = final_header.required_bytes :=
    h.length_encode final_header
  have hdrop : (codec.encode final_header).drop final_header.required_bytes = [] := by
    rw [← hlength, List.drop_length]
  have hzero : ¬ final_header.length > 0 := by decide
  rw [carve, hread]
  simp only [dif_pos (Nat.le_of_eq hlength.symm), if_neg hzero, hdrop, hended, and_self, if_true]
  exact carve_of_none (try_read_nil h)

/-! ### How a stream is cut -/

/-- The bytes that are there hold some whole messages.  What is left is either not yet a
    message, or the end of the stream. -/
structure Cut (codec : Codec) (valid rest tail : List UInt8) (frames : List Frame) where
  whole : List Frame
  others : List Frame
  left : List UInt8
  frames_eq : frames = whole ++ others
  valid_eq : valid = Frame.stream codec whole ++ left
  left_eq : left ++ rest = Frame.stream codec others ++ tail
  stop : MessageHeader.try_read codec left = none ∨
    (left = codec.encode final_header ∧ tail = left ∧ rest = [] ∧ others = [])

/-- Where a stream of messages can be cut, it may be before its end or after. -/
theorem exists_cut (h : codec.Lawful) {tail : List UInt8}
    (htail : tail = [] ∨ tail = codec.encode final_header)
    (hstream : valid ++ rest = Frame.stream codec frames ++ tail) :
    Nonempty (Cut codec valid rest tail frames) := by
  induction frames generalizing valid with
  | nil =>
    rw [Frame.stream_nil, List.nil_append] at hstream
    rcases Nat.lt_or_ge valid.length header_bytes with hshort | hlong
    · -- not even a header
      refine ⟨⟨[], [], valid, rfl, rfl, hstream, Or.inl ?_⟩⟩
      rw [MessageHeader.try_read, h.decode_short valid hshort]
      rfl
    · -- the final header
      have htotal := congrArg List.length hstream
      rw [List.length_append] at htotal
      rcases htail with rfl | rfl
      · rw [header_bytes] at hlong
        rw [List.length_nil] at htotal
        omega
      · rw [h.length_encode] at htotal
        have hrest : rest = [] := List.length_eq_zero_iff.mp (by omega)
        subst hrest
        rw [List.append_nil] at hstream
        refine ⟨⟨[], [], valid, rfl, rfl, ?_, Or.inr ⟨hstream, hstream.symm, rfl, rfl⟩⟩⟩
        rw [List.append_nil, Frame.stream_nil, List.nil_append, hstream]
  | cons frame frames ih =>
    rw [Frame.stream_cons, List.append_assoc] at hstream
    rcases List.append_eq_append_iff.mp hstream with ⟨later, hpart, hrest⟩ | ⟨more, hvalid, hmore⟩
    · by_cases hlater : later = []
      · -- cut right behind the first message
        subst hlater
        rw [List.append_nil] at hpart
        rw [List.nil_append] at hrest
        have hnil : [] ++ rest = Frame.stream codec frames ++ tail := hrest
        obtain ⟨cut⟩ := ih hnil
        refine ⟨⟨frame :: cut.whole, cut.others, cut.left, ?_, ?_, cut.left_eq, cut.stop⟩⟩
        · rw [List.cons_append, ← cut.frames_eq]
        · rw [Frame.stream_cons, List.append_assoc, ← cut.valid_eq, List.append_nil, hpart]
      · -- cut within the first message
        refine ⟨⟨[], frame :: frames, valid, rfl, rfl, ?_, Or.inl ?_⟩⟩
        · rw [hstream, Frame.stream_cons, List.append_assoc]
        · exact Frame.try_read_part h frame hpart.symm hlater
    · -- cut behind the first message
      obtain ⟨cut⟩ := ih hmore.symm
      refine ⟨⟨frame :: cut.whole, cut.others, cut.left, ?_, ?_, cut.left_eq, cut.stop⟩⟩
      · rw [List.cons_append, ← cut.frames_eq]
      · rw [Frame.stream_cons, List.append_assoc, ← cut.valid_eq, hvalid]

end RecvLoop

end Timely.Network
