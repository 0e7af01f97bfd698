/-
  Timely/Network/MessageHeader.lean
  =================================
  **Messages on the wire** (`communication/src/networking.rs`).

  A message is a header, which is encoded in 40 bytes, and as many bytes as the
  header says.  How headers are encoded is left open: all that is used is that an
  encoded header is decoded whatever follows it, and that too few bytes are not.
  Byte queues hold whole messages, several of them in one entry where adjacent
  slices were merged.
-/
import Mathlib.Algebra.Order.Ring.Nat
import Mathlib.Data.List.Forall2
import Mathlib.Tactic.Common

set_option linter.unusedSectionVars false

namespace Timely.Network

/-- Framing data for each transmission. -/
structure MessageHeader where
  /-- Index of channel. -/
  channel : UInt64
  /-- Index of worker sending message. -/
  source : UInt64
  /-- Index of worker receiving message. -/
  target : UInt64
  /-- Number of bytes in message. -/
  length : UInt64
  /-- Sequence number. -/
  seqno : UInt64
  deriving DecidableEq

/-- The size of a header, five words. -/
def header_bytes : ℕ := 40

/-- How headers are encoded and decoded, with what is left behind a decoded one. -/
structure Codec where
  encode : MessageHeader → List UInt8
  decode : List UInt8 → Option (MessageHeader × List UInt8)

/-- What is assumed of the encoding. -/
structure Codec.Lawful (codec : Codec) : Prop where
  length_encode : ∀ header, (codec.encode header).length = header_bytes
  decode_encode : ∀ header rest, codec.decode (codec.encode header ++ rest) = some (header, rest)
  decode_short : ∀ bytes, bytes.length < header_bytes → codec.decode bytes = none

namespace MessageHeader

variable (header : MessageHeader)

/-- The number of bytes required for the header and data. -/
def required_bytes : ℕ := header_bytes + header.length.toNat

/-- Returns a header when there is enough supporting data. -/
def try_read (codec : Codec) (bytes : List UInt8) : Option MessageHeader :=
  (codec.decode bytes).bind fun (header, remaining) =>
    if remaining.length ≥ header.length.toNat then some header else none

end MessageHeader

/-- A message with its header, which knows its length. -/
structure Frame where
  header : MessageHeader
  payload : List UInt8
  length_eq : header.length.toNat = payload.length
  nonempty : 0 < payload.length

namespace Frame

variable (codec : Codec)

def bytes (frame : Frame) : List UInt8 := codec.encode frame.header ++ frame.payload

/-- Messages behind each other. -/
def stream (frames : List Frame) : List UInt8 := frames.flatMap (bytes codec)

@[simp] theorem stream_nil : stream codec [] = [] := rfl

@[simp] theorem stream_cons (frame : Frame) (frames : List Frame) :
    stream codec (frame :: frames) = frame.bytes codec ++ stream codec frames := List.flatMap_cons

@[simp] theorem stream_append (first second : List Frame) :
    stream codec (first ++ second) = stream codec first ++ stream codec second :=
  List.flatMap_append

variable {codec} (h : codec.Lawful) (frame : Frame)
include h

theorem length_bytes : (frame.bytes codec).length = frame.header.required_bytes := by
  rw [bytes, List.length_append, h.length_encode, MessageHeader.required_bytes, frame.length_eq]

theorem length_bytes_pos : 0 < (frame.bytes codec).length := by
  rw [length_bytes h, MessageHeader.required_bytes, header_bytes]
  omega

/-- A message at the front is read. -/
theorem try_read_bytes (rest : List UInt8) :
    MessageHeader.try_read codec (frame.bytes codec ++ rest) = some frame.header := by
  have hroom : frame.header.length.toNat ≤ (frame.payload ++ rest).length := by
    rw [List.length_append, frame.length_eq]
    omega
  rw [MessageHeader.try_read, bytes, List.append_assoc, h.decode_encode]
  exact if_pos hroom

theorem take_bytes (rest : List UInt8) :
    (frame.bytes codec ++ rest).take frame.header.required_bytes = frame.bytes codec := by
  rw [← length_bytes h, List.take_left']
  rfl

theorem drop_bytes (rest : List UInt8) :
    (frame.bytes codec ++ rest).drop frame.header.required_bytes = rest := by
  rw [← length_bytes h, List.drop_left']
  rfl

theorem drop_header : (frame.bytes codec).drop header_bytes = frame.payload := by
  rw [bytes, List.drop_left']
  exact h.length_encode _

/-- A message that has arrived in part is not read. -/
theorem try_read_part {part later : List UInt8} (hpart : part ++ later = frame.bytes codec)
    (hlater : later ≠ []) : MessageHeader.try_read codec part = none := by
  rw [MessageHeader.try_read]
  rcases Nat.lt_or_ge part.length header_bytes with hshort | hlong
  · rw [h.decode_short part hshort]
    rfl
  · -- the header is whole, but not the data
    have hencode : part.take header_bytes = codec.encode frame.header := by
      have htake := congrArg (List.take header_bytes) hpart
      rwa [List.take_append_of_le_length hlong, bytes,
        List.take_left' (h.length_encode _)] at htake
    have hdata : part.drop header_bytes ++ later = frame.payload := by
      have hdrop := congrArg (List.drop header_bytes) hpart
      rwa [List.drop_append_of_le_length hlong, drop_header h] at hdrop
    have hless : (part.drop header_bytes).length < frame.header.length.toNat := by
      rw [frame.length_eq, ← hdata, List.length_append]
      have := List.length_pos_iff.mpr hlater
      omega
    rw [← List.take_append_drop header_bytes part, hencode, h.decode_encode]
    exact if_neg (Nat.not_le.mpr hless)

end Frame

/-! ### Queues of whole messages -/

/-- The entries of a queue of bytes hold these messages, each entry whole ones. -/
def Carries (codec : Codec) (queue : List (List UInt8)) (frames : List Frame) : Prop :=
  ∃ parts : List (List Frame), queue = parts.map (Frame.stream codec) ∧ parts.flatten = frames

namespace Carries

variable {codec : Codec} {queue queue' : List (List UInt8)} {frames frames' : List Frame}

theorem nil : Carries codec [] [] := ⟨[], rfl, rfl⟩

theorem append (h : Carries codec queue frames) (h' : Carries codec queue' frames') :
    Carries codec (queue ++ queue') (frames ++ frames') := by
  obtain ⟨parts, rfl, rfl⟩ := h
  obtain ⟨parts', rfl, rfl⟩ := h'
  exact ⟨parts ++ parts', by rw [List.map_append], by rw [List.flatten_append]⟩

theorem singleton (frames : List Frame) : Carries codec [Frame.stream codec frames] frames :=
  ⟨[frames], rfl, by simp⟩

theorem eq_nil (h : Carries codec [] frames) : frames = [] := by
  obtain ⟨parts, hparts, rfl⟩ := h
  have hnil : parts = [] := List.map_eq_nil_iff.mp hparts.symm
  rw [hnil]
  rfl

/-- Each message in an entry of its own. -/
theorem map_bytes (frames : List Frame) : Carries codec (frames.map (Frame.bytes codec)) frames := by
  refine ⟨frames.map fun frame => [frame], ?_, ?_⟩
  · rw [List.map_map]
    refine List.map_congr_left fun frame _ => ?_
    rw [Function.comp_apply, Frame.stream_cons, Frame.stream_nil, List.append_nil]
  · rw [← List.flatMap_def, List.flatMap_singleton']

/-- An entry in front of the others. -/
theorem of_cons {entry : List UInt8} (h : Carries codec (entry :: queue) frames) :
    ∃ first rest, entry = Frame.stream codec first ∧ Carries codec queue rest ∧
      frames = first ++ rest := by
  obtain ⟨parts, hparts, rfl⟩ := h
  rcases parts with _ | ⟨first, parts⟩
  · cases hparts
  · obtain ⟨hentry, hqueue⟩ := List.cons.inj hparts
    exact ⟨first, parts.flatten, hentry, ⟨parts, hqueue, rfl⟩, List.flatten_cons⟩

/-- The last entry, and those before. -/
theorem of_snoc {entry : List UInt8} (h : Carries codec (queue ++ [entry]) frames) :
    ∃ first last, entry = Frame.stream codec last ∧ Carries codec queue first ∧
      frames = first ++ last := by
  obtain ⟨parts, hparts, rfl⟩ := h
  obtain ⟨before, after, rfl, hbefore, hafter⟩ := List.map_eq_append_iff.mp hparts.symm
  obtain ⟨last, rfl, hlast⟩ := List.map_eq_singleton_iff.mp hafter
  exact ⟨before.flatten, last, hlast.symm, ⟨before, hbefore.symm, rfl⟩, by simp⟩

end Carries

/-! ### Five words -/

/-- The lowest bytes of a number, the lowest first. -/
def le : ℕ → ℕ → List UInt8
  | 0, _ => []
  | count + 1, n => UInt8.ofNat n :: le count (n / 256)

def read_le (bytes : List UInt8) : ℕ := bytes.foldr (fun byte n => byte.toNat + 256 * n) 0

theorem length_le (count n : ℕ) : (le count n).length = count := by
  induction count generalizing n with
  | zero => rfl
  | succ count ih => rw [le, List.length_cons, ih]

theorem read_le_le (count n : ℕ) : read_le (le count n) = n % 256 ^ count := by
  induction count generalizing n with
  | zero =>
    rw [Nat.pow_zero, Nat.mod_one]
    rfl
  | succ count ih =>
    have hread : read_le (le (count + 1) n) = n % 256 + 256 * read_le (le count (n / 256)) := rfl
    rw [hread, ih, Nat.pow_succ', Nat.mod_mul]

/-- The bytes of a word. -/
def word (w : UInt64) : List UInt8 := le 8 w.toNat

/-- Takes a word off the front, if there is one. -/
def take_word (bytes : List UInt8) : Option (UInt64 × List UInt8) :=
  if bytes.length < 8 then none
  else some (UInt64.ofNat (read_le (bytes.take 8)), bytes.drop 8)

theorem take_word_word (w : UInt64) (rest : List UInt8) :
    take_word (word w ++ rest) = some (w, rest) := by
  have hsize : w.toNat < 256 ^ 8 := w.toNat_lt
  have hlength : (word w).length = 8 := length_le 8 w.toNat
  have hlong : ¬ (word w ++ rest).length < 8 := by
    rw [List.length_append, hlength]
    omega
  rw [take_word, if_neg hlong, List.take_left' hlength, List.drop_left' hlength, word, read_le_le,
    Nat.mod_eq_of_lt hsize, UInt64.ofNat_toNat]

theorem le_length_of_take_word {bytes rest : List UInt8} {w : UInt64}
    (h : take_word bytes = some (w, rest)) : bytes.length = 8 + rest.length := by
  obtain ⟨hlong, hword⟩ := Option.ite_none_left_eq_some.mp h
  obtain ⟨-, rfl⟩ := Prod.mk.inj (Option.some.inj hword)
  rw [List.length_drop]
  omega

/-- Headers as they lie in memory. -/
def Codec.memory : Codec where
  encode header := word header.channel ++ (word header.source ++ (word header.target
    ++ (word header.length ++ word header.seqno)))
  decode bytes := do
    let (channel, bytes) ← take_word bytes
    let (source, bytes) ← take_word bytes
    let (target, bytes) ← take_word bytes
    let (length, bytes) ← take_word bytes
    let (seqno, bytes) ← take_word bytes
    return ({ channel, source, target, length, seqno }, bytes)

theorem Codec.memory_lawful : Codec.memory.Lawful := by
  have hlength : ∀ w, (word w).length = 8 := fun w => length_le 8 w.toNat
  refine ⟨fun header => ?_, fun header rest => ?_, fun bytes hshort => ?_⟩
  · simp only [memory, List.length_append, hlength, header_bytes]
  · simp only [memory, List.append_assoc, take_word_word, Option.bind_eq_bind, Option.bind_some,
      Option.pure_def]
  · refine Option.eq_none_iff_forall_ne_some.mpr fun decoded hdecoded => ?_
    simp only [memory, Option.bind_eq_bind, Option.bind_eq_some_iff, Prod.exists] at hdecoded
    obtain ⟨_, bytes₁, h₁, _, bytes₂, h₂, _, bytes₃, h₃, _, bytes₄, h₄, _, bytes₅, h₅, -⟩ := hdecoded
    have := le_length_of_take_word h₁
    have := le_length_of_take_word h₂
    have := le_length_of_take_word h₃
    have := le_length_of_take_word h₄
    have := le_length_of_take_word h₅
    rw [header_bytes] at hshort
    omega

end Timely.Network
