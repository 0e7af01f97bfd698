/-
  Timely/BytesSlab.lean
  =====================
  **A large binary allocation for writing and sharing**
  (`communication/src/allocator/zero_copy/bytes_slab.rs`).

  Bytes are written behind the valid ones and extracted from the front.  When the
  buffer has no room left it is retired, the valid bytes are copied to another
  buffer, and the retired one is used again once nobody shares it.  The valid
  bytes survive this, the slices handed out are not touched, and there is room.
-/
import Timely.Bytes
import Mathlib.Data.List.ReduceOption

set_option linter.unusedSectionVars false

namespace Timely

open Library

structure BytesSlab where
  /-- Current working buffer. -/
  buffer : Bytes
  /-- Buffers shared with workers. -/
  in_progress : List (Option Bytes)
  /-- Reclaimed and reusable buffers. -/
  stash : List Bytes
  /-- Current buffer allocation size. -/
  shift : ℕ
  /-- `buffer[..valid]` are valid bytes. -/
  valid : ℕ

namespace BytesSlab

variable (memory : Memory) (slab : BytesSlab)

/-- Allocates a new slab with an initial size determined by a shift. -/
def new (shift : ℕ) : Memory × BytesSlab :=
  let (memory, buffer) := Bytes.from_allocation memory (List.replicate (2 ^ shift) 0)
  (memory, ⟨buffer, [], [], shift, 0⟩)

/-- The region behind the valid bytes, as a borrowed slice; slicing fails where the valid
    length is beyond the buffer. -/
def empty : Option Bytes :=
  if slab.valid ≤ slab.buffer.len then
    some { slab.buffer with
      ptr := slab.buffer.ptr + slab.valid, len := slab.buffer.len - slab.valid }
  else none

/-- The valid bytes. -/
def valid_bytes : List UInt8 := (slab.buffer.deref memory).take slab.valid

/-- Marks the next `bytes` bytes as valid. -/
def make_valid (bytes : ℕ) : BytesSlab := { slab with valid := slab.valid + bytes }

/-- Extracts the first `bytes` valid bytes; fails where the source asserts. -/
def extract (bytes : ℕ) : Option (Memory × Bytes × BytesSlab) :=
  if bytes ≤ slab.valid then
    (slab.buffer.extract_to memory bytes).map fun (memory, front, back) =>
      (memory, front, { slab with buffer := back, valid := slab.valid - bytes })
  else none

/-- Drops all buffers of a list. -/
def clear (memory : Memory) (buffers : List Bytes) : Memory :=
  buffers.foldl (fun memory b => b.drop memory) memory

/-- The loop that increases the shift until a copy leaves enough room, with the flag that says
    whether it did. -/
def increase_shift (memory : Memory) (slab : BytesSlab) (capacity : ℕ) (increased : Bool) :
    Memory × BytesSlab × Bool :=
  if slab.valid + capacity > 2 ^ slab.shift then
    -- the buffers of the old size are of no use
    let memory := clear (clear memory slab.stash) slab.in_progress.reduceOption
    increase_shift memory { slab with shift := slab.shift + 1, stash := [], in_progress := [] }
      capacity true
  else (memory, slab, increased)
termination_by slab.valid + capacity - 2 ^ slab.shift
decreasing_by
  have : 2 ^ slab.shift < 2 ^ (slab.shift + 1) := Nat.pow_lt_pow_right (by omega) (by omega)
  omega

/-- The loop over the retired buffers: those that nobody shares any more join the stash, and
    leave `None` behind. -/
def reclaim (shift : ℕ) (memory : Memory) (stash : List Bytes) :
    List (Option Bytes) → Memory × List Bytes × List (Option Bytes)
  | [] => (memory, stash, [])
  | none :: in_progress =>
    let (memory, stash, kept) := reclaim shift memory stash in_progress
    (memory, stash, none :: kept)
  | some bytes :: in_progress =>
    match bytes.try_regenerate memory with
    | (true, bytes) =>
      let (memory, stash) :=
        -- the source says that this test should be redundant
        if bytes.len = 2 ^ shift then (memory, stash ++ [bytes]) else (bytes.drop memory, stash)
      let (memory, stash, kept) := reclaim shift memory stash in_progress
      (memory, stash, none :: kept)
    | (false, bytes) =>
      let (memory, stash, kept) := reclaim shift memory stash in_progress
      (memory, stash, some bytes :: kept)

/-- Attempts to reclaim shared buffers, if there is no other at hand. -/
def reclaim_shared : Memory × BytesSlab :=
  if slab.stash.isEmpty then
    let (memory, stash, in_progress) := reclaim slab.shift memory slab.stash slab.in_progress
    (memory, { slab with stash := stash, in_progress := in_progress.filter Option.isSome })
  else (memory, slab)

/-- The next buffer: a reclaimed one, else a new one. -/
def next_buffer : Memory × Bytes × BytesSlab :=
  match slab.stash.getLast? with
  | some buffer => (memory, buffer, { slab with stash := slab.stash.dropLast })
  | none =>
    let (memory, buffer) := Bytes.from_allocation memory (List.replicate (2 ^ slab.shift) 0)
    (memory, buffer, slab)

/-- Copies the valid bytes to the next buffer, and retires the old one. -/
def replace_buffer (increased : Bool) : Option (Memory × BytesSlab) :=
  let (memory, new_buffer, slab) := slab.next_buffer memory
  let old_buffer := slab.buffer
  (new_buffer.deref_mut memory 0 ((old_buffer.deref memory).take slab.valid)).map fun memory =>
    if increased then (old_buffer.drop memory, { slab with buffer := new_buffer })
    else (memory, { slab with
      buffer := new_buffer, in_progress := slab.in_progress ++ [some old_buffer] })

/-- Ensures that the empty region holds at least `capacity` bytes. -/
def ensure_capacity (capacity : ℕ) : Option (Memory × BytesSlab) :=
  slab.empty.bind fun empty =>
    if empty.len < capacity then
      let (memory, slab, increased) := increase_shift memory slab capacity false
      let (memory, slab) := slab.reclaim_shared memory
      slab.replace_buffer memory increased
    else some (memory, slab)

/-! ### What a slab owns -/

/-- The retired and the reclaimed buffers. -/
def spare : List Bytes := slab.in_progress.reduceOption ++ slab.stash

/-- The slices that the slab holds. -/
def held : List Bytes := slab.buffer :: slab.spare

/-- The slab next to slices that others hold: together they own the memory, the slab's
    allocations have the current size (but for the buffer, once the size was increased), and
    the reclaimed ones are whole. -/
structure Sound (memory : Memory) (slab : BytesSlab) (increased : Bool) (others : List Bytes) :
    Prop where
  owned : Owned memory (slab.held ++ others)
  buffer_sized : increased = false →
    (memory.value slab.buffer.sequestered).length = 2 ^ slab.shift
  sized : ∀ b ∈ slab.spare, (memory.value b.sequestered).length = 2 ^ slab.shift
  whole : ∀ b ∈ slab.stash, b.ptr = 0 ∧ b.len = 2 ^ slab.shift

variable {memory : Memory} {slab : BytesSlab} {others : List Bytes}

theorem new_sound (memory : Memory) (shift : ℕ) (h : Owned memory others) :
    Sound (new memory shift).1 (new memory shift).2 false others := by
  refine ⟨h.from_allocation _, fun _ => ?_, fun b hmem => ?_, fun b hmem => ?_⟩
  · simp [new, Bytes.from_allocation]
  · simp [new, spare, List.reduceOption] at hmem
  · simp [new] at hmem

/-! ### Writing and extracting -/

theorem empty_eq_some_iff {region : Bytes} : slab.empty = some region ↔
    slab.valid ≤ slab.buffer.len ∧ region = { slab.buffer with
      ptr := slab.buffer.ptr + slab.valid, len := slab.buffer.len - slab.valid } := by
  rw [empty]
  by_cases hvalid : slab.valid ≤ slab.buffer.len
  · simp [hvalid, eq_comm]
  · simp [hvalid]

/-- A write to the empty region changes neither the valid bytes nor what others hold. -/
theorem write_spec {increased : Bool} (h : Sound memory slab increased others) {region : Bytes}
    {start : ℕ} {bytes : List UInt8} {memory' : Memory} (hempty : slab.empty = some region)
    (hwrite : region.deref_mut memory start bytes = some memory') :
    Sound memory' slab increased others ∧ (∀ b ∈ others, b.deref memory' = b.deref memory) ∧
      slab.valid_bytes memory' = slab.valid_bytes memory := by
  obtain ⟨hvalid, rfl⟩ := empty_eq_some_iff.mp hempty
  -- the write is one to the buffer, behind the valid bytes
  obtain ⟨hroom, -⟩ := Owned.deref_mut_eq_some_iff.mp hwrite
  simp only at hroom
  have hbuffer : slab.buffer ∈ slab.held ++ others := by simp [held]
  have hwhole : slab.buffer.deref_mut memory (slab.valid + start) bytes = some memory' := by
    obtain ⟨-, hmemory⟩ := Owned.deref_mut_eq_some_iff.mp hwrite
    refine Owned.deref_mut_eq_some_iff.mpr ⟨by omega, ?_⟩
    rw [hmemory, Nat.add_assoc]
  have hsizes := h.owned.length_value_deref_mut hbuffer hwhole
  refine ⟨⟨h.owned.deref_mut hbuffer hwhole, fun hfalse => ?_, fun b hmem => ?_, h.whole⟩,
    fun b hmem => ?_, ?_⟩
  · rw [hsizes]
    exact h.buffer_sized hfalse
  · rw [hsizes]
    exact h.sized b hmem
  · have hapart : Bytes.Apart slab.buffer b :=
      (List.pairwise_cons.mp h.owned.apart).1 b (List.mem_append_right _ hmem)
    have hpart : Bytes.Apart { slab.buffer with
        ptr := slab.buffer.ptr + (slab.valid + start), len := bytes.length } b :=
      hapart.of_part rfl (by simp only; omega) (by simp only; omega)
    exact h.owned.deref_deref_mut hbuffer hwhole hpart.symm
  · have hfront : Bytes.Apart { slab.buffer with len := slab.valid } { slab.buffer with
        ptr := slab.buffer.ptr + (slab.valid + start), len := bytes.length } := by
      intro _
      refine Finset.disjoint_left.mpr fun i hfirst hsecond => ?_
      simp only [Bytes.span, Finset.mem_Ico] at hfirst hsecond
      omega
    have hread := h.owned.deref_deref_mut hbuffer hwhole hfront
    simpa only [valid_bytes, Bytes.deref, take_window hvalid] using hread

/-- Extraction hands out the first valid bytes, and the others stay. -/
theorem extract_spec {increased : Bool} (h : Sound memory slab increased others) {bytes : ℕ}
    {memory' : Memory} {front : Bytes} {slab' : BytesSlab}
    (hextract : slab.extract memory bytes = some (memory', front, slab')) :
    Sound memory' slab' increased (front :: others) ∧
      (∀ id, memory'.value id = memory.value id) ∧
      front.deref memory' = (slab.valid_bytes memory).take bytes ∧
      slab'.valid_bytes memory' = (slab.valid_bytes memory).drop bytes := by
  simp only [extract] at hextract
  split at hextract
  case isFalse => cases hextract
  case isTrue hbytes =>
    obtain ⟨⟨memory₁, first, back⟩, hcut, hresult⟩ := Option.map_eq_some_iff.mp hextract
    obtain ⟨rfl, rfl, rfl⟩ : _ ∧ _ ∧ _ := by simpa using hresult
    obtain ⟨hfront, hback, hvalue⟩ := Owned.deref_extract_to hcut
    have howned : Owned memory₁ (first :: back :: (slab.spare ++ others)) :=
      Owned.extract_to h.owned hcut
    have hsame : back.sequestered = slab.buffer.sequestered := by
      simp only [Bytes.extract_to] at hcut
      split at hcut
      · obtain ⟨-, -, rfl⟩ : _ ∧ _ ∧ _ := by simpa using hcut
        rfl
      · cases hcut
    refine ⟨⟨howned.perm ?_, fun hfalse => ?_, fun b hmem => ?_, h.whole⟩, hvalue, ?_, ?_⟩
    · simp only [held, spare]
      grind
    · rw [hvalue, hsame]
      exact h.buffer_sized hfalse
    · rw [hvalue]
      exact h.sized b hmem
    · rw [hfront, valid_bytes, List.take_take, Nat.min_eq_left hbytes]
    · rw [valid_bytes, hback, valid_bytes, List.drop_take]

/-! ### Making room -/

theorem value_clear (buffers : List Bytes) (memory : Memory) (id : ℕ) :
    (clear memory buffers).value id = memory.value id := by
  induction buffers generalizing memory with
  | nil => rfl
  | cons b buffers ih =>
    rw [clear, List.foldl_cons]
    exact (ih (b.drop memory)).trans Heap.value_release

theorem clear_owned {buffers : List Bytes} (h : Owned memory (buffers ++ others)) :
    Owned (clear memory buffers) others := by
  induction buffers generalizing memory with
  | nil => exact h
  | cons b buffers ih => exact ih (Owned.drop h)

/-- The loop ends with a size that leaves the room asked for, and has only dropped buffers. -/
theorem increase_shift_spec (capacity : ℕ) {increased : Bool}
    (h : Sound memory slab increased others) {memory' : Memory} {slab' : BytesSlab}
    {increased' : Bool}
    (hloop : increase_shift memory slab capacity increased = (memory', slab', increased')) :
    Sound memory' slab' increased' others ∧ (∀ id, memory'.value id = memory.value id) ∧
      slab'.buffer = slab.buffer ∧ slab'.valid = slab.valid ∧
      slab'.valid + capacity ≤ 2 ^ slab'.shift := by
  fun_induction increase_shift memory slab capacity increased with
  | case1 memory slab increased hsmall cleared ih =>
    have hvalue : ∀ id, Heap.value cleared id = Heap.value memory id := by
      intro id
      rw [value_clear, value_clear]
    have howned : Owned memory (slab.stash ++ (slab.in_progress.reduceOption ++
        (slab.buffer :: others))) := by
      refine h.owned.perm ?_
      simp only [held, spare, List.cons_append, List.append_assoc]
      grind
    obtain ⟨hsound, hvalues, hrest⟩ := ih ⟨clear_owned (clear_owned howned),
      fun hfalse => by simp at hfalse, fun b hmem => by simp [spare, List.reduceOption] at hmem,
      fun b hmem => by simp at hmem⟩ hloop
    exact ⟨hsound, fun id => (hvalues id).trans (hvalue id), hrest⟩
  | case2 memory slab increased hsmall =>
    obtain ⟨rfl, rfl, rfl⟩ : _ ∧ _ ∧ _ := by simpa using hloop
    exact ⟨h, fun _ => rfl, rfl, rfl, by omega⟩

/-! ### Reclaiming buffers -/

/-- The loop over the retired buffers: what it stashes is whole, what it keeps is as it was,
    and what it drops is nobody's. -/
theorem reclaim_spec {shift : ℕ} {stash : List Bytes} {in_progress : List (Option Bytes)}
    (howned : Owned memory (in_progress.reduceOption ++ stash ++ others))
    (hsized : ∀ b ∈ in_progress.reduceOption ++ stash,
      (memory.value b.sequestered).length = 2 ^ shift)
    (hwhole : ∀ b ∈ stash, b.ptr = 0 ∧ b.len = 2 ^ shift)
    {memory' : Memory} {stash' : List Bytes} {kept : List (Option Bytes)}
    (hloop : reclaim shift memory stash in_progress = (memory', stash', kept)) :
    Owned memory' (kept.reduceOption ++ stash' ++ others) ∧
      (∀ id, memory'.value id = memory.value id) ∧
      (∀ b ∈ kept.reduceOption ++ stash', (memory.value b.sequestered).length = 2 ^ shift) ∧
      ∀ b ∈ stash', b.ptr = 0 ∧ b.len = 2 ^ shift := by
  induction in_progress generalizing memory stash others kept with
  | nil =>
    obtain ⟨rfl, rfl, rfl⟩ : _ ∧ _ ∧ _ := by simpa [reclaim] using hloop
    exact ⟨howned, fun _ => rfl, hsized, hwhole⟩
  | cons entry in_progress ih =>
    cases entry with
    | none =>
      rcases hrest : reclaim shift memory stash in_progress with ⟨memory₁, stash₁, kept₁⟩
      obtain ⟨rfl, rfl, rfl⟩ : _ ∧ _ ∧ _ := by simpa [reclaim, hrest] using hloop
      rw [List.reduceOption_cons_of_none]
      exact ih howned hsized hwhole hrest
    | some b =>
      simp only [List.reduceOption_cons_of_some, List.cons_append] at howned hsized
      have hb : (memory.value b.sequestered).length = 2 ^ shift := hsized b (by simp)
      have hothers : ∀ c ∈ in_progress.reduceOption ++ stash,
          (memory.value c.sequestered).length = 2 ^ shift :=
        fun c hmem => hsized c (List.mem_cons_of_mem _ hmem)
      simp only [reclaim] at hloop
      cases htry : b.try_regenerate memory with
      | mk unique bytes =>
        rw [htry] at hloop
        cases unique with
        | true =>
          -- nobody shares it: it is whole again, and of the size asked for
          obtain ⟨hgrown, hsame, hptr, hlen⟩ := howned.try_regenerate htry
          rw [hb] at hlen
          rcases hrest : reclaim shift memory (stash ++ [bytes]) in_progress with
            ⟨memory₁, stash₁, kept₁⟩
          obtain ⟨rfl, rfl, rfl⟩ : _ ∧ _ ∧ _ := by simpa [hlen, hrest] using hloop
          rw [List.reduceOption_cons_of_none]
          refine ih (hgrown.perm ?_) (fun c hmem => ?_) (fun c hmem => ?_) hrest
          · grind
          · rcases List.mem_append.mp hmem with hmem | hmem
            · exact hothers c (List.mem_append_left _ hmem)
            rcases List.mem_append.mp hmem with hmem | hmem
            · exact hothers c (List.mem_append_right _ hmem)
            · rw [List.mem_singleton.mp hmem, hsame, hb]
          · rcases List.mem_append.mp hmem with hmem | hmem
            · exact hwhole c hmem
            · rw [List.mem_singleton.mp hmem]
              exact ⟨hptr, hlen⟩
        | false =>
          -- it is shared, and stays where it is
          obtain rfl : b = bytes := by
            simp only [Bytes.try_regenerate] at htry
            split at htry
            · simp at htry
            · simpa using htry
          rcases hrest : reclaim shift memory stash in_progress with ⟨memory₁, stash₁, kept₁⟩
          obtain ⟨rfl, rfl, rfl⟩ : _ ∧ _ ∧ _ := by simpa [hrest] using hloop
          have hmoved : Owned memory (in_progress.reduceOption ++ stash ++ (b :: others)) :=
            howned.perm (by grind)
          obtain ⟨hkept, hvalue, hsizes, hwholes⟩ := ih hmoved hothers hwhole hrest
          refine ⟨hkept.perm ?_, hvalue, fun c hmem => ?_, hwholes⟩
          · simp only [List.reduceOption_cons_of_some]
            grind
          · simp only [List.reduceOption_cons_of_some, List.cons_append] at hmem
            rcases List.mem_cons.mp hmem with rfl | hmem
            · exact hb
            · exact hsizes c hmem

theorem reduceOption_filter_isSome (entries : List (Option Bytes)) :
    (entries.filter Option.isSome).reduceOption = entries.reduceOption := by
  induction entries with
  | nil => rfl
  | cons entry entries ih =>
    cases entry with
    | none => simpa using ih
    | some b => simpa using ih

theorem reclaim_shared_spec {increased : Bool} (h : Sound memory slab increased others)
    {memory' : Memory} {slab' : BytesSlab}
    (hreclaim : slab.reclaim_shared memory = (memory', slab')) :
    Sound memory' slab' increased others ∧ (∀ id, memory'.value id = memory.value id) ∧
      slab'.buffer = slab.buffer ∧ slab'.valid = slab.valid ∧ slab'.shift = slab.shift := by
  simp only [reclaim_shared] at hreclaim
  split at hreclaim
  case isFalse =>
    obtain ⟨rfl, rfl⟩ : _ ∧ _ := by simpa using hreclaim
    exact ⟨h, fun _ => rfl, rfl, rfl, rfl⟩
  case isTrue =>
    cases hloop : reclaim slab.shift memory slab.stash slab.in_progress with
    | mk memory₁ rest =>
      obtain ⟨stash, kept⟩ := rest
      rw [hloop] at hreclaim
      obtain ⟨rfl, rfl⟩ : _ ∧ _ := by simpa using hreclaim
      have howned : Owned memory (slab.in_progress.reduceOption ++ slab.stash ++
          (slab.buffer :: others)) := by
        refine h.owned.perm ?_
        simp only [held, spare]
        grind
      obtain ⟨hkept, hvalue, hsized, hwhole⟩ := reclaim_spec howned h.sized h.whole hloop
      refine ⟨⟨hkept.perm ?_, fun hfalse => ?_, fun b hmem => ?_, hwhole⟩, hvalue, rfl, rfl, rfl⟩
      · simp only [held, spare, reduceOption_filter_isSome]
        grind
      · rw [hvalue]
        exact h.buffer_sized hfalse
      · rw [hvalue]
        refine hsized b ?_
        simpa only [spare, reduceOption_filter_isSome] using hmem

/-! ### Replacing the buffer -/

/-- The next buffer is whole, of the current size, and nobody else's. -/
theorem next_buffer_spec {increased : Bool} (h : Sound memory slab increased others)
    {memory' : Memory} {buffer : Bytes} {slab' : BytesSlab}
    (hnext : slab.next_buffer memory = (memory', buffer, slab')) :
    Owned memory' (buffer :: (slab'.held ++ others)) ∧
      (∀ b ∈ slab.held ++ others, memory'.value b.sequestered = memory.value b.sequestered) ∧
      (∃ kept, slab' = { slab with stash := kept } ∧ ∀ b ∈ kept, b ∈ slab.stash) ∧
      buffer.ptr = 0 ∧ buffer.len = 2 ^ slab.shift ∧
      (memory'.value buffer.sequestered).length = 2 ^ slab.shift := by
  simp only [next_buffer] at hnext
  cases hlast : slab.stash.getLast? with
  | some last =>
    rw [hlast] at hnext
    obtain ⟨rfl, rfl, rfl⟩ : _ ∧ _ ∧ _ := by simpa using hnext
    have hstash : slab.stash = slab.stash.dropLast ++ [last] :=
      (List.dropLast_append_getLast? last hlast).symm
    have hmem : last ∈ slab.stash := List.mem_of_getLast? hlast
    refine ⟨h.owned.perm ?_, fun _ _ => rfl,
      ⟨_, rfl, fun b hb => List.mem_of_mem_dropLast hb⟩, (h.whole last hmem).1,
      (h.whole last hmem).2, h.sized last ?_⟩
    · simp only [held, spare]
      rw [hstash]
      grind
    · exact List.mem_append_right _ hmem
  | none =>
    rw [hlast] at hnext
    obtain ⟨rfl, rfl, rfl⟩ : _ ∧ _ ∧ _ := by
      simpa [Bytes.from_allocation] using hnext
    have howned := h.owned.from_allocation (List.replicate (2 ^ slab.shift) 0)
    simp only [Bytes.from_allocation, List.length_replicate] at howned
    refine ⟨howned, fun b hmem => Heap.value_alloc _ (h.owned.lt_next hmem),
      ⟨_, rfl, fun _ hb => hb⟩, rfl, rfl, ?_⟩
    rw [Heap.value_alloc_next, List.length_replicate]

/-- The copy succeeds where the valid bytes fit, and leaves room behind them. -/
theorem replace_buffer_spec {increased : Bool} (h : Sound memory slab increased others)
    (hvalid : slab.valid ≤ slab.buffer.len) (hfits : slab.valid ≤ 2 ^ slab.shift) :
    ∃ memory' slab', slab.replace_buffer memory increased = some (memory', slab') ∧
      Sound memory' slab' false others ∧
      (∀ b ∈ others, b.deref memory' = b.deref memory) ∧
      slab'.valid_bytes memory' = slab.valid_bytes memory ∧ slab'.valid = slab.valid ∧
      slab'.buffer.len = 2 ^ slab.shift := by
  rcases hnext : slab.next_buffer memory with ⟨memory₁, buffer, slab₁⟩
  obtain ⟨howned, hvalue, ⟨kept, rfl, hkept⟩, hptr, hlen, hsize⟩ := next_buffer_spec h hnext
  have hbuffer : slab.buffer.deref memory₁ = slab.buffer.deref memory := by
    simp only [Bytes.deref, hvalue slab.buffer (by simp [held])]
  have hlength : (slab.valid_bytes memory).length = slab.valid := by
    rw [valid_bytes, List.length_take, h.owned.length_deref (by simp [held])]
    exact Nat.min_eq_left hvalid
  -- the copy
  obtain ⟨memory₂, hcopy⟩ : ∃ memory₂,
      buffer.deref_mut memory₁ 0 (slab.valid_bytes memory) = some memory₂ :=
    ⟨_, Owned.deref_mut_eq_some_iff.mpr ⟨by omega, rfl⟩⟩
  have hcopied := howned.deref_mut List.mem_cons_self hcopy
  have hsizes := howned.length_value_deref_mut List.mem_cons_self hcopy
  have hothers : ∀ b ∈ others, b.deref memory₂ = b.deref memory := by
    intro b hmem
    have hapart : Bytes.Apart b buffer :=
      ((List.pairwise_cons.mp howned.apart).1 b (List.mem_append_right _ hmem)).symm
    have hpart : Bytes.Apart { buffer with
        ptr := buffer.ptr + 0, len := (slab.valid_bytes memory).length } b :=
      hapart.symm.of_part rfl (by simp) (by simp only; omega)
    rw [howned.deref_deref_mut List.mem_cons_self hcopy hpart.symm]
    simp only [Bytes.deref, hvalue b (List.mem_append_right _ hmem)]
  have hread : (buffer.deref memory₂).take slab.valid = slab.valid_bytes memory := by
    have hself := howned.deref_deref_mut_self List.mem_cons_self hcopy
    rw [Bytes.deref, take_window (by omega)]
    simpa only [Bytes.deref, hlength, Nat.add_zero] using hself
  have hspare : ∀ b ∈ slab.in_progress.reduceOption ++ kept,
      (memory₂.value b.sequestered).length = 2 ^ slab.shift := by
    intro b hmem
    have hb : b ∈ slab.spare := by
      rcases List.mem_append.mp hmem with hmem | hmem
      · exact List.mem_append_left _ hmem
      · exact List.mem_append_right _ (hkept b hmem)
    rw [hsizes, hvalue b (List.mem_append_left _ (List.mem_cons_of_mem _ hb))]
    exact h.sized b hb
  cases increased with
  | true =>
    refine ⟨slab.buffer.drop memory₂, { slab with stash := kept, buffer := buffer }, ?_,
      ⟨?_, fun _ => ?_, fun b hmem => ?_, fun b hmem => h.whole b (hkept b hmem)⟩, ?_, ?_, rfl, hlen⟩
    · simp only [replace_buffer, hnext, hbuffer]
      simp only [valid_bytes] at hcopy
      simp [hcopy]
    · refine Owned.drop (hcopied.perm ?_)
      simp only [held, spare]
      grind
    · rw [Bytes.drop, Heap.value_release, hsizes, hsize]
    · rw [Bytes.drop, Heap.value_release]
      exact hspare b hmem
    · intro b hmem
      rw [Owned.deref_drop]
      exact hothers b hmem
    · rw [valid_bytes, Owned.deref_drop]
      exact hread
  | false =>
    refine ⟨memory₂, { slab with
        stash := kept, buffer := buffer, in_progress := slab.in_progress ++ [some slab.buffer] }, ?_,
      ⟨?_, fun _ => ?_, fun b hmem => ?_, fun b hmem => h.whole b (hkept b hmem)⟩, hothers, hread,
      rfl, hlen⟩
    · simp only [replace_buffer, hnext, hbuffer]
      simp only [valid_bytes] at hcopy
      simp [hcopy]
    · refine hcopied.perm ?_
      simp only [held, spare, List.reduceOption_append, List.reduceOption_singleton,
        Option.toList_some]
      grind
    · rw [hsizes, hsize]
    · simp only [spare, List.reduceOption_append, List.reduceOption_singleton,
        Option.toList_some, List.append_assoc] at hmem
      by_cases hold : b = slab.buffer
      · rw [hold, hsizes, hvalue slab.buffer (by simp [held])]
        exact h.buffer_sized rfl
      · refine hspare b ?_
        simp only [List.mem_append, List.mem_singleton, hold, false_or] at hmem ⊢
        exact hmem

/-- Where the valid length is within the buffer, the call succeeds: the valid bytes are as they
    were, no slice that others hold has changed, and there is room for as much as was asked. -/
theorem ensure_capacity_spec (h : Sound memory slab false others)
    (hvalid : slab.valid ≤ slab.buffer.len) (capacity : ℕ) :
    ∃ memory' slab', slab.ensure_capacity memory capacity = some (memory', slab') ∧
      Sound memory' slab' false others ∧
      (∀ b ∈ others, b.deref memory' = b.deref memory) ∧
      slab'.valid_bytes memory' = slab.valid_bytes memory ∧ slab'.valid = slab.valid ∧
      slab'.valid + capacity ≤ slab'.buffer.len := by
  by_cases hroom : slab.buffer.len - slab.valid < capacity
  · rcases hgrow : increase_shift memory slab capacity false with ⟨memory₁, slab₁, increased⟩
    obtain ⟨hsound₁, hvalue₁, hbuffer₁, hvalid₁, henough⟩ := increase_shift_spec capacity h hgrow
    rcases hreclaim : slab₁.reclaim_shared memory₁ with ⟨memory₂, slab₂⟩
    obtain ⟨hsound₂, hvalue₂, hbuffer₂, hvalid₂, hshift₂⟩ := reclaim_shared_spec hsound₁ hreclaim
    have hread : ∀ b : Bytes, b.deref memory₂ = b.deref memory := by
      intro b
      simp only [Bytes.deref, hvalue₂, hvalue₁]
    have hbuffer : slab₂.buffer = slab.buffer := hbuffer₂.trans hbuffer₁
    have hvalids : slab₂.valid = slab.valid := hvalid₂.trans hvalid₁
    obtain ⟨memory₃, slab₃, hreplace, hsound, hothers, hbytes, hvalid₃, hlen⟩ :=
      replace_buffer_spec hsound₂ (by rw [hbuffer, hvalids]; exact hvalid)
        (by rw [hshift₂]; omega)
    refine ⟨memory₃, slab₃, ?_, hsound, fun b hmem => ?_, ?_, hvalid₃.trans hvalids, ?_⟩
    · simp [ensure_capacity, empty, hvalid, hroom, hgrow, hreclaim, hreplace]
    · rw [hothers b hmem, hread]
    · rw [hbytes, valid_bytes, valid_bytes, hbuffer, hvalids, hread]
    · rw [hlen, hvalid₃, hvalid₂, hshift₂]
      exact henough
  · refine ⟨memory, slab, ?_, h, fun _ _ => rfl, rfl, rfl, by omega⟩
    simp [ensure_capacity, empty, hvalid, hroom]

/-- A valid length beyond the buffer makes the call fail. -/
theorem valid_of_ensure_capacity {capacity : ℕ} {memory' : Memory} {slab' : BytesSlab}
    (hensure : slab.ensure_capacity memory capacity = some (memory', slab')) :
    slab.valid ≤ slab.buffer.len := by
  by_contra hbeyond
  simp [ensure_capacity, empty, hbeyond] at hensure

end BytesSlab

end Timely
