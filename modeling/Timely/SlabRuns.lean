/-
  Timely/SlabRuns.lean
  ====================
  **A slab and its consumers.**

  The slab writes, extracts and makes room while consumers cut, merge and drop
  what was extracted, in any order.  Next to each extracted slice stands what the
  slab held there at the time, and next to the slab stand the bytes that were made
  valid and the bytes that were extracted so far.
-/
import Timely.BytesSlab
import Timely.Library.Run

set_option linter.unusedSectionVars false

namespace Timely

open Library

/-- A slice that a consumer holds, with its bytes at the time of its extraction. -/
structure Extracted where
  bytes : Bytes
  contents : List UInt8

structure SlabSystem where
  memory : Memory
  slab : BytesSlab
  /-- The slices that consumers hold. -/
  consumed : List Extracted
  /-- The bytes that were made valid, in order. -/
  written : List UInt8
  /-- The bytes that were extracted, in order. -/
  extracted : List UInt8

/-- The operations of the slab and of its consumers. -/
inductive SlabOp where
  | write (start : ℕ) (bytes : List UInt8)
  | make_valid (bytes : ℕ)
  | extract (bytes : ℕ)
  | ensure_capacity (capacity : ℕ)
  | extract_to (index : ℕ)
  | try_merge
  | drop

namespace SlabSystem

/-- A new slab, and no consumer yet. -/
def start (shift : ℕ) : SlabSystem :=
  ⟨(BytesSlab.new ⟨[]⟩ shift).1, (BytesSlab.new ⟨[]⟩ shift).2, [], [], []⟩

/-- One operation that does not fail.  The slices of the consumers are in no order. -/
inductive Step : SlabSystem → SlabOp → SlabSystem → Prop
  | write {s : SlabSystem} {region : Bytes} {first : ℕ} {bytes : List UInt8} {memory : Memory}
      (hempty : s.slab.empty = some region)
      (hwrite : region.deref_mut s.memory first bytes = some memory) :
      Step s (.write first bytes) { s with memory := memory }
  | make_valid {s : SlabSystem} (bytes : ℕ) :
      Step s (.make_valid bytes) { s with
        slab := s.slab.make_valid bytes
        written := s.written ++ ((s.slab.buffer.deref s.memory).drop s.slab.valid).take bytes }
  | extract {s : SlabSystem} {bytes : ℕ} {memory : Memory} {front : Bytes} {slab : BytesSlab}
      (hextract : s.slab.extract s.memory bytes = some (memory, front, slab)) :
      Step s (.extract bytes) { s with
        memory := memory
        slab := slab
        consumed := ⟨front, (s.slab.valid_bytes s.memory).take bytes⟩ :: s.consumed
        extracted := s.extracted ++ (s.slab.valid_bytes s.memory).take bytes }
  | ensure_capacity {s : SlabSystem} {capacity : ℕ} {memory : Memory} {slab : BytesSlab}
      (hensure : s.slab.ensure_capacity s.memory capacity = some (memory, slab)) :
      Step s (.ensure_capacity capacity) { s with memory := memory, slab := slab }
  | extract_to {s : SlabSystem} {e : Extracted} {rest : List Extracted} {index : ℕ}
      {memory : Memory} {front back : Bytes}
      (hheld : s.consumed.Perm (e :: rest))
      (hcut : e.bytes.extract_to s.memory index = some (memory, front, back)) :
      Step s (.extract_to index) { s with
        memory := memory
        consumed := ⟨front, e.contents.take index⟩ :: ⟨back, e.contents.drop index⟩ :: rest }
  | try_merge {s : SlabSystem} {e other : Extracted} {rest : List Extracted}
      {memory : Memory} {merged : Bytes}
      (hheld : s.consumed.Perm (e :: other :: rest))
      (hmerge : e.bytes.try_merge s.memory other.bytes = .ok (memory, merged)) :
      Step s .try_merge { s with
        memory := memory
        consumed := ⟨merged, e.contents ++ other.contents⟩ :: rest }
  | not_merged {s : SlabSystem} {e other : Extracted} {rest : List Extracted} {returned : Bytes}
      (hheld : s.consumed.Perm (e :: other :: rest))
      (hmerge : e.bytes.try_merge s.memory other.bytes = .error returned) :
      Step s .try_merge { s with consumed := e :: ⟨returned, other.contents⟩ :: rest }
  | drop {s : SlabSystem} {e : Extracted} {rest : List Extracted}
      (hheld : s.consumed.Perm (e :: rest)) :
      Step s .drop { s with memory := e.bytes.drop s.memory, consumed := rest }

/-- The slices that exist. -/
def live (s : SlabSystem) : List Bytes := s.slab.held ++ s.consumed.map Extracted.bytes

/-- The slab is sound next to what the consumers hold, they hold what was extracted, and the
    valid bytes are those that were made valid and not extracted. -/
structure Kept (s : SlabSystem) : Prop where
  sound : s.slab.Sound s.memory false (s.consumed.map Extracted.bytes)
  contents : ∀ e ∈ s.consumed, e.bytes.deref s.memory = e.contents
  stream : s.extracted ++ s.slab.valid_bytes s.memory = s.written

theorem start_kept (shift : ℕ) : (start shift).Kept := by
  refine ⟨BytesSlab.new_sound _ shift Owned.nil, fun e hmem => ?_, ?_⟩
  · simp [start] at hmem
  · simp [start, BytesSlab.new, BytesSlab.valid_bytes]

variable {s s' : SlabSystem} {op : SlabOp}

/-- What consumers hold may be listed in any order. -/
theorem Kept.perm {consumed : List Extracted} (h : s.Kept) (hperm : s.consumed.Perm consumed) :
    Kept { s with consumed := consumed } := by
  have hbytes := hperm.map Extracted.bytes
  refine ⟨⟨h.sound.owned.perm (hbytes.append_left _), h.sound.buffer_sized, h.sound.sized,
    h.sound.whole⟩, fun e hmem => h.contents e (hperm.mem_iff.mpr hmem), h.stream⟩

/-- A change to what consumers hold that leaves all bytes as they are. -/
theorem Kept.of_consumed {memory : Memory} {consumed : List Extracted} (h : s.Kept)
    (howned : Owned memory (s.slab.held ++ consumed.map Extracted.bytes))
    (hvalue : ∀ id, memory.value id = s.memory.value id)
    (hcontents : ∀ e ∈ consumed, e.bytes.deref memory = e.contents) :
    Kept { s with memory := memory, consumed := consumed } := by
  refine ⟨⟨howned, fun hfalse => ?_, fun b hmem => ?_, h.sound.whole⟩, hcontents, ?_⟩
  · rw [hvalue]
    exact h.sound.buffer_sized hfalse
  · rw [hvalue]
    exact h.sound.sized b hmem
  · have hvalid : s.slab.valid_bytes memory = s.slab.valid_bytes s.memory := by
      simp only [BytesSlab.valid_bytes, Bytes.deref, hvalue]
    rw [hvalid]
    exact h.stream

/-- Every operation keeps this. -/
theorem Kept.step (h : s.Kept) (hstep : Step s op s') : s'.Kept := by
  cases hstep with
  | write hempty hwrite =>
    obtain ⟨hsound, hothers, hvalid⟩ := BytesSlab.write_spec h.sound hempty hwrite
    refine ⟨hsound, fun e hmem => ?_, ?_⟩
    · rw [hothers _ (List.mem_map_of_mem hmem)]
      exact h.contents e hmem
    · rw [hvalid]
      exact h.stream
  | make_valid bytes =>
    refine ⟨⟨h.sound.owned, h.sound.buffer_sized, h.sound.sized, h.sound.whole⟩, h.contents, ?_⟩
    rw [← h.stream, List.append_assoc]
    simp only [BytesSlab.valid_bytes, BytesSlab.make_valid, List.take_add]
  | extract hextract =>
    obtain ⟨hsound, hvalue, hfront, hrest⟩ := BytesSlab.extract_spec h.sound hextract
    refine ⟨hsound, fun e hmem => ?_, ?_⟩
    · rcases List.mem_cons.mp hmem with rfl | hmem
      · exact hfront
      · rw [← h.contents e hmem]
        simp only [Bytes.deref, hvalue]
    · rw [hrest, List.append_assoc, List.take_append_drop]
      exact h.stream
  | @ensure_capacity capacity memory slab hensure =>
    obtain ⟨_, _, hresult, hsound, hothers, hvalid, -, -⟩ := BytesSlab.ensure_capacity_spec
      h.sound (BytesSlab.valid_of_ensure_capacity hensure) capacity
    rw [hensure] at hresult
    cases hresult
    refine ⟨hsound, fun e hmem => ?_, ?_⟩
    · rw [hothers _ (List.mem_map_of_mem hmem)]
      exact h.contents e hmem
    · rw [hvalid]
      exact h.stream
  | @extract_to e rest index memory front back hheld hcut =>
    have hkept := h.perm hheld
    obtain ⟨hfront, hback, hvalue⟩ := Owned.deref_extract_to hcut
    have he := hkept.contents e List.mem_cons_self
    refine hkept.of_consumed ?_ hvalue fun c hmem => ?_
    · have hfirst : Owned s.memory (e.bytes :: (s.slab.held ++ rest.map Extracted.bytes)) :=
        hkept.sound.owned.perm List.perm_middle
      refine (hfirst.extract_to hcut).perm ?_
      simp only [List.map_cons]
      grind
    · rcases List.mem_cons.mp hmem with rfl | hmem
      · rw [hfront, he]
      rcases List.mem_cons.mp hmem with rfl | hmem
      · rw [hback, he]
      · rw [← hkept.contents c (List.mem_cons_of_mem _ hmem)]
        simp only [Bytes.deref, hvalue]
  | @try_merge e other rest memory merged hheld hmerge =>
    have hkept := h.perm hheld
    obtain ⟨hmerged, hvalue⟩ := Owned.deref_try_merge hmerge
    refine hkept.of_consumed ?_ hvalue fun c hmem => ?_
    · have hfirst : Owned s.memory
          (e.bytes :: other.bytes :: (s.slab.held ++ rest.map Extracted.bytes)) := by
        refine hkept.sound.owned.perm ?_
        simp only [List.map_cons]
        grind
      refine (hfirst.try_merge hmerge).perm ?_
      simp only [List.map_cons]
      grind
    · rcases List.mem_cons.mp hmem with rfl | hmem
      · rw [hmerged, hkept.contents e (by simp), hkept.contents other (by simp)]
      · rw [← hkept.contents c (by simp [hmem])]
        simp only [Bytes.deref, hvalue]
  | @not_merged e other rest returned hheld hmerge =>
    have hsame : returned = other.bytes := by
      simp only [Bytes.try_merge] at hmerge
      split at hmerge
      · cases hmerge
      · exact (Except.error.inj hmerge).symm
    subst hsame
    exact h.perm hheld
  | @drop e rest hheld =>
    have hkept := h.perm hheld
    refine hkept.of_consumed ?_ (fun _ => Heap.value_release) fun c hmem => ?_
    · exact Owned.drop (hkept.sound.owned.perm List.perm_middle)
    · rw [Owned.deref_drop]
      exact hkept.contents c (List.mem_cons_of_mem _ hmem)

theorem Kept.run {shift : ℕ} {ops : List SlabOp} (h : Run Step (start shift) ops s) : s.Kept :=
  h.invariant (P := fun _ s => Kept s) (start_kept shift) fun hkept hstep => hkept.step hstep

/-- In every state that the slab and its consumers reach, no two slices have a byte in common,
    the counts of the allocations are those of the slices, every extracted slice reads what it
    did when it was extracted, and the bytes that were made valid are those extracted, then the
    valid ones.  Making room leaves the valid bytes alone and makes the room asked for. -/
theorem bytes_in_use_kept {shift : ℕ} {ops : List SlabOp} (h : Run Step (start shift) ops s) :
    s.live.Pairwise Bytes.Apart ∧
      (∀ id, s.memory.count id = (s.live.map Bytes.sequestered).count id) ∧
      (∀ b ∈ s.live, b.ptr + b.len ≤ (s.memory.value b.sequestered).length) ∧
      (∀ e ∈ s.consumed, e.bytes.deref s.memory = e.contents) ∧
      s.extracted ++ s.slab.valid_bytes s.memory = s.written ∧
      ∀ capacity,
        (∀ memory slab, s.slab.ensure_capacity s.memory capacity = some (memory, slab) →
          slab.valid_bytes memory = s.slab.valid_bytes s.memory ∧ slab.valid = s.slab.valid ∧
            ∃ region, slab.empty = some region ∧ capacity ≤ region.len) ∧
        (s.slab.valid ≤ s.slab.buffer.len →
          (s.slab.ensure_capacity s.memory capacity).isSome) := by
  have hkept := Kept.run h
  refine ⟨hkept.sound.owned.apart, hkept.sound.owned.counted, hkept.sound.owned.inside,
    hkept.contents, hkept.stream, fun capacity => ⟨fun memory slab hensure => ?_, fun hvalid => ?_⟩⟩
  · obtain ⟨_, _, hresult, -, -, hbytes, hsame, hroom⟩ := BytesSlab.ensure_capacity_spec
      hkept.sound (BytesSlab.valid_of_ensure_capacity hensure) capacity
    rw [hensure] at hresult
    cases hresult
    refine ⟨hbytes, hsame, _, BytesSlab.empty_eq_some_iff.mpr ⟨by omega, rfl⟩, ?_⟩
    simp only
    omega
  · obtain ⟨_, _, hresult, -⟩ := BytesSlab.ensure_capacity_spec hkept.sound hvalid capacity
    rw [hresult]
    rfl

/-! ### A slice that outlives its buffer -/

/-- Three bytes written, two of them extracted and cut in two, and the third one moved to a new
    buffer. -/
def moved : SlabSystem where
  memory := ⟨[⟨[1, 2, 3, 0], 3⟩, ⟨[3, 0, 0, 0], 1⟩]⟩
  slab := ⟨⟨0, 4, 1⟩, [some ⟨2, 2, 0⟩], [], 2, 1⟩
  consumed := [⟨⟨0, 1, 0⟩, [1]⟩, ⟨⟨1, 1, 0⟩, [2]⟩]
  written := [1, 2, 3]
  extracted := [1, 2]

theorem moved_run : Run Step (start 2)
    [.write 0 [1, 2, 3], .make_valid 3, .extract 2, .extract_to 1, .ensure_capacity 3] moved := by
  refine (((Run.nil.snoc (Step.write rfl rfl)).snoc (Step.make_valid 3)).snoc
    (Step.extract rfl)).snoc (Step.extract_to (List.Perm.refl _) rfl) |>.snoc
    (Step.ensure_capacity ?_)
  rw [BytesSlab.ensure_capacity, BytesSlab.increase_shift]
  rfl

theorem bytes_in_use_kept_example :
    moved.live.Pairwise Bytes.Apart ∧
      (moved.consumed.map fun e => e.bytes.deref moved.memory) = [[1], [2]] ∧
      moved.slab.valid_bytes moved.memory = [3] := by
  obtain ⟨hapart, -, -, hcontents, hstream, -⟩ := bytes_in_use_kept moved_run
  refine ⟨hapart, ?_, ?_⟩
  · rw [List.map_congr_left hcontents]
    rfl
  · have hboth : [1, 2] ++ moved.slab.valid_bytes moved.memory = [1, 2] ++ [3] := hstream
    exact List.append_cancel_left hboth

end SlabSystem

end Timely
