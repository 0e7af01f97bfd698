/-
  Timely/Sort/Lsb.lean
  ====================
  **The two least significant byte sorters** (`sort/src/lsb.rs` and `lsb_swc.rs`).

  One shuffler writes elements into their buckets at once, the other collects
  them in lines first and moves full lines.  Both finish with the elements of
  each byte in the order in which they came, so both sort, and stably.
-/
import Timely.Sort.SwcBuffer
import Timely.Sort.Shuffling

set_option linter.unusedSectionVars false

namespace Timely.Sort

open Library

/-- How many lines a page holds. -/
def lines_per_page : ℕ := 4096 / 64

/-- The capacity of the buffers that the sorters allocate. -/
def page (size : ℕ+) : ℕ := lines_per_page * per_cache_line size

theorem page_usable (size : ℕ+) : per_cache_line size ∣ page size ∧ 0 < page size :=
  ⟨Nat.dvd_mul_left _ _, Nat.mul_pos (by decide) (per_cache_line_pos size)⟩

/-- A loop over bytes that empties one sequence after the other. -/
theorem foldlM_bytes {State T : Type} {step : State → Fin 256 → Option State}
    {P : State → (Fin 256 → List T) → List T → Prop}
    (hstep : ∀ {state contents out} byte, P state contents out →
      ∃ state', step state byte = some state' ∧
        P state' (Function.update contents byte []) (out ++ contents byte))
    {bytes : List (Fin 256)} (hnodup : bytes.Nodup) {state : State} {contents : Fin 256 → List T}
    {out : List T} (h : P state contents out) :
    ∃ state', bytes.foldlM step state = some state' ∧
      P state' (fun byte => if byte ∈ bytes then [] else contents byte)
        (out ++ bytes.flatMap contents) := by
  induction bytes generalizing state contents out with
  | nil => exact ⟨state, rfl, by simpa using h⟩
  | cons byte bytes ih =>
    obtain ⟨hbyte, hrest⟩ := List.nodup_cons.mp hnodup
    obtain ⟨state₁, hfirst, h₁⟩ := hstep byte h
    obtain ⟨state', hfold, h'⟩ := ih hrest h₁
    refine ⟨state', by rw [List.foldlM_cons, hfirst]; exact hfold, ?_⟩
    have hcontents : (fun other => if other ∈ byte :: bytes then [] else contents other)
        = fun other => if other ∈ bytes then [] else Function.update contents byte [] other := by
      funext other
      by_cases hother : other = byte
      · subst hother
        simp
      · simp [hother]
    have hout : bytes.flatMap (Function.update contents byte []) = bytes.flatMap contents := by
      refine List.flatMap_congr fun other hmem => ?_
      have hne : other ≠ byte := by
        rintro rfl
        exact hbyte hmem
      exact Function.update_of_ne hne _ _
    rw [hcontents, List.flatMap_cons, ← List.append_assoc]
    rwa [hout] at h'

/-! ### Without write combining -/

namespace Lsb

/-- The buckets, and spare buffers. -/
structure Shuffler (T : Type) where
  buckets : Fin 256 → BatchedVec T
  stash : Stash T

namespace Shuffler

variable {T : Type}

def new (size : ℕ+) : Shuffler T := ⟨fun _ => BatchedVec.new, Stash.new (page size)⟩

/-- Pushes an element into one of 256 buckets. -/
def push (shuffler : Shuffler T) (element : T) (function : T → Fin 256) : Option (Shuffler T) :=
  let byte := function element
  ((shuffler.buckets byte).push shuffler.stash element).map fun (bucket, stash) =>
    ⟨Function.update shuffler.buckets byte bucket, stash⟩

/-- One turn of the loop of `finish_into`. -/
def finish_byte (result : List (Vec T) × Shuffler T) (byte : Fin 256) :
    Option (List (Vec T) × Shuffler T) :=
  let (target, bucket) := (result.2.buckets byte).finish_into result.1
  some (target, { result.2 with buckets := Function.update result.2.buckets byte bucket })

/-- Finishes the shuffling into a target vector. -/
def finish_into (shuffler : Shuffler T) (target : List (Vec T)) :
    Option (List (Vec T) × Shuffler T) :=
  (List.finRange 256).foldlM finish_byte (target, shuffler)

/-- The shuffler holds these elements for each byte. -/
structure Holds (size : ℕ+) (shuffler : Shuffler T) (contents : Fin 256 → List T) : Prop where
  buckets : ∀ byte, (shuffler.buckets byte).Sound (per_cache_line size)
  packed : ∀ byte, (shuffler.buckets byte).Packed
  items : ∀ byte, (shuffler.buckets byte).items = contents byte
  stash : shuffler.stash.Sound (per_cache_line size)

variable {size : ℕ+} {shuffler : Shuffler T} {contents : Fin 256 → List T}

theorem new_holds : (new size : Shuffler T).Holds size fun _ => [] :=
  ⟨fun _ => BatchedVec.new_sound, fun _ _ => rfl, fun _ => rfl,
    Stash.new_sound (page_usable size).1 (page_usable size).2⟩

/-- A bucket that is replaced. -/
theorem Holds.update (h : shuffler.Holds size contents) (byte : Fin 256) {bucket : BatchedVec T}
    {stash : Stash T} (hbucket : bucket.Sound (per_cache_line size)) (hpacked : bucket.Packed)
    (hstash : stash.Sound (per_cache_line size)) :
    Holds size ⟨Function.update shuffler.buckets byte bucket, stash⟩
      (Function.update contents byte bucket.items) := by
  refine ⟨(Function.forall_update_iff shuffler.buckets fun _ b =>
      b.Sound (per_cache_line size)).mpr ⟨hbucket, fun other _ => h.buckets other⟩,
    (Function.forall_update_iff shuffler.buckets fun _ b => b.Packed).mpr
      ⟨hpacked, fun other _ => h.packed other⟩, fun other => ?_, hstash⟩
  by_cases hother : other = byte
  · subst hother
    simp
  · simpa [hother] using h.items other

theorem Holds.push (h : shuffler.Holds size contents) (element : T) (function : T → Fin 256) :
    ∃ shuffler', shuffler.push element function = some shuffler' ∧ shuffler'.Holds size
      (Function.update contents (function element) (contents (function element) ++ [element])) := by
  obtain ⟨bucket, stash, hpush, hbucket, hstash, hitems, hne⟩ :=
    BatchedVec.push_spec (h.buckets (function element)) h.stash element
  refine ⟨⟨Function.update shuffler.buckets (function element) bucket, stash⟩, ?_, ?_⟩
  · rw [Shuffler.push, hpush]
    rfl
  · have hupdate := h.update (function element) hbucket
      (fun htail => absurd htail hne) hstash
    rwa [hitems, h.items] at hupdate

/-- What holds between the turns: the buffers so far hold `out`. -/
def Finishing (size : ℕ+) (state : List (Vec T) × Shuffler T) (contents : Fin 256 → List T)
    (out : List T) : Prop :=
  state.2.Holds size contents ∧ elements state.1 = out ∧
    ∀ vec ∈ state.1, vec.Usable (per_cache_line size)

theorem Finishing.finish_byte {state : List (Vec T) × Shuffler T} {out : List T} (byte : Fin 256)
    (h : Finishing size state contents out) :
    ∃ state', finish_byte state byte = some state' ∧
      Finishing size state' (Function.update contents byte []) (out ++ contents byte) := by
  obtain ⟨hholds, hout, husable⟩ := h
  obtain ⟨hitems, hfinished, hlined, hempty⟩ := BatchedVec.finish_spec (hholds.buckets byte)
  refine ⟨(state.1 ++ (state.2.buckets byte).finish.1, { state.2 with
    buckets := Function.update state.2.buckets byte (state.2.buckets byte).finish.2 }), ?_, ?_, ?_,
    ?_⟩
  · rw [Shuffler.finish_byte, BatchedVec.finish_into_eq]
  · have hupdate := hholds.update byte hlined.sound hlined.packed hholds.stash
    rwa [hempty] at hupdate
  · rw [elements_append, hout, hitems, hholds.items]
  · intro vec hmem
    rcases List.mem_append.mp hmem with hmem | hmem
    · exact husable vec hmem
    · exact hfinished vec hmem

theorem Holds.finish_into (h : shuffler.Holds size contents) :
    ∃ out shuffler', shuffler.finish_into [] = some (out, shuffler') ∧
      shuffler'.Holds size (fun _ => []) ∧ elements out = (List.finRange 256).flatMap contents ∧
      ∀ vec ∈ out, vec.Usable (per_cache_line size) := by
  have hstart : Finishing size (([] : List (Vec T)), shuffler) contents [] :=
    ⟨h, rfl, fun _ hmem => absurd hmem List.not_mem_nil⟩
  obtain ⟨⟨out, shuffler'⟩, hfold, hholds, hout, husable⟩ :=
    foldlM_bytes Finishing.finish_byte (List.nodup_finRange 256) hstart
  refine ⟨out, shuffler', hfold, ?_, hout, husable⟩
  simpa using hholds

end Shuffler

/-- The shuffler of the sorter. -/
def shuffling (T : Type) : Shuffling T (Shuffler T) where
  push := Shuffler.push
  finish_into := Shuffler.finish_into
  stash := Shuffler.stash
  with_stash shuffler stash := { shuffler with stash := stash }

theorem shuffling_lawful (T : Type) (size : ℕ+) :
    (shuffling T).Lawful (per_cache_line size) (Shuffler.Holds size) where
  push h := h.push
  finish_into h := h.finish_into
  stash h := h.stash
  with_stash h hstash := ⟨h.buckets, h.packed, h.items, hstash⟩

end Lsb

/-! ### With write combining -/

namespace LsbSwc

/-- The lines, the buckets, and spare buffers. -/
structure Shuffler (T : Type) where
  buffer : SWCBuffer T
  buckets : Fin 256 → BatchedVec T
  stash : Stash T

namespace Shuffler

variable {T : Type}

def new (size : ℕ+) : Shuffler T :=
  ⟨SWCBuffer.new, fun _ => BatchedVec.new, Stash.new (page size)⟩

/-- Puts an element into its line; a full line is moved to its bucket before. -/
def push (size : ℕ+) (shuffler : Shuffler T) (element : T) (key : T → Fin 256) :
    Option (Shuffler T) := do
  let byte := key element
  let shuffler ←
    if shuffler.buffer.full size byte then do
      let (buffer, bucket, stash) ←
        shuffler.buffer.drain_into size byte (shuffler.buckets byte) shuffler.stash
      pure (⟨buffer, Function.update shuffler.buckets byte bucket, stash⟩ : Shuffler T)
    else pure shuffler
  let buffer ← shuffler.buffer.push size byte element
  return { shuffler with buffer := buffer }

/-- Whether the last buffer has room for the elements of a line. -/
def last_has_room (target : List (Vec T)) (count : ℕ) : Bool :=
  match target.getLast? with
  | some last => last.capacity - last.items.length ≥ count
  | none => false

/-- One turn of the loop of `finish_into`: the line follows its bucket, in the last buffer if it
    has room there. -/
def finish_byte (size : ℕ+) (result : List (Vec T) × Shuffler T) (byte : Fin 256) :
    Option (List (Vec T) × Shuffler T) :=
  let (target, bucket) := (result.2.buckets byte).finish_into result.1
  let buckets := Function.update result.2.buckets byte bucket
  let (target, stash) :=
    if last_has_room target (result.2.buffer.count byte) then (target, result.2.stash)
    else
      let (fresh, stash) := result.2.stash.get
      (target ++ [fresh], stash)
  match target.getLast? with
  | some last =>
    (result.2.buffer.drain_into_vec size byte last).map fun (buffer, last) =>
      (target.dropLast ++ [last], ⟨buffer, buckets, stash⟩)
  | none => none

def finish_into (size : ℕ+) (shuffler : Shuffler T) (target : List (Vec T)) :
    Option (List (Vec T) × Shuffler T) :=
  (List.finRange 256).foldlM (finish_byte size) (target, shuffler)

/-- The shuffler holds these elements for each byte: first those of the bucket, in whole lines,
    then those of the line. -/
structure Holds (size : ℕ+) (shuffler : Shuffler T) (contents : Fin 256 → List T) : Prop where
  lines : ∃ lines, shuffler.buffer.Holds size lines ∧
    ∀ byte, (shuffler.buckets byte).items ++ lines byte = contents byte
  buckets : ∀ byte, (shuffler.buckets byte).Lined (per_cache_line size)
  stash : shuffler.stash.Sound (per_cache_line size)

variable {size : ℕ+} {shuffler : Shuffler T} {contents : Fin 256 → List T}

theorem new_holds : (new size : Shuffler T).Holds size fun _ => [] :=
  ⟨⟨fun _ => [], SWCBuffer.new_holds, fun _ => rfl⟩, fun _ => BatchedVec.new_lined,
    Stash.new_sound (page_usable size).1 (page_usable size).2⟩

theorem Holds.push (h : shuffler.Holds size contents) (element : T) (key : T → Fin 256) :
    ∃ shuffler', shuffler.push size element key = some shuffler' ∧ shuffler'.Holds size
      (Function.update contents (key element) (contents (key element) ++ [element])) := by
  obtain ⟨lines, hlines, hcontents⟩ := h.lines
  -- an element that goes into its line, once there is room
  have hlast : ∀ {buffer : SWCBuffer T} {lines' : Fin 256 → List T}
      (buckets : Fin 256 → BatchedVec T), buffer.Holds size lines' →
      (lines' (key element)).length < per_cache_line size →
      (∀ byte, (buckets byte).items ++ lines' byte = contents byte) →
      ∃ buffer', buffer.push size (key element) element = some buffer' ∧ ∃ lines'',
        buffer'.Holds size lines'' ∧ ∀ byte, (buckets byte).items ++ lines'' byte
          = Function.update contents (key element) (contents (key element) ++ [element]) byte := by
    intro buffer lines' buckets hlines' hroom hcontents'
    obtain ⟨buffer', hpush, hpushed⟩ := hlines'.push hroom element
    refine ⟨buffer', hpush, _, hpushed, fun byte => ?_⟩
    by_cases hbyte : byte = key element
    · subst hbyte
      rw [Function.update_self, Function.update_self, ← List.append_assoc, hcontents']
    · rw [Function.update_of_ne hbyte, Function.update_of_ne hbyte, hcontents']
  by_cases hfull : shuffler.buffer.full size (key element) = true
  · -- the full line moves to its bucket
    have hline := (hlines.full_iff (key element)).mp hfull
    obtain ⟨buffer₁, bucket, stash, hdrain, hlines₁, -, hstash, hitems, -, hwhole⟩ :=
      hlines.drain_into (h.buckets (key element)) h.stash (key element)
    obtain ⟨buffer₂, hpush, lines₂, hlines₂, hcontents₂⟩ := hlast
      (Function.update shuffler.buckets (key element) bucket) hlines₁
      (by simpa using per_cache_line_pos size) (fun byte => by
        by_cases hbyte : byte = key element
        · subst hbyte
          simp [hitems, hcontents]
        · simp [hbyte, hcontents])
    refine ⟨⟨buffer₂, Function.update shuffler.buckets (key element) bucket, stash⟩, ?_,
      ⟨lines₂, hlines₂, hcontents₂⟩, (Function.forall_update_iff shuffler.buckets fun _ b =>
        BatchedVec.Lined _ b).mpr ⟨hwhole hline, fun other _ => h.buckets other⟩, hstash⟩
    simp [Shuffler.push, hfull, hdrain, hpush]
  · have hroom : (lines (key element)).length < per_cache_line size :=
      lt_of_le_of_ne (hlines.bound _) fun heq => hfull ((hlines.full_iff _).mpr heq)
    obtain ⟨buffer₁, hpush, hlines₁⟩ := hlast shuffler.buckets hlines hroom hcontents
    refine ⟨{ shuffler with buffer := buffer₁ }, ?_, hlines₁, h.buckets, h.stash⟩
    simp [Shuffler.push, hfull, hpush]

/-- An empty bucket takes the place of one whose line is drained. -/
theorem Holds.emptied (h : shuffler.Holds size contents) {lines : Fin 256 → List T}
    (hcontents : ∀ byte, (shuffler.buckets byte).items ++ lines byte = contents byte)
    {byte : Fin 256} {buffer : SWCBuffer T} (hbuffer : buffer.Holds size (Function.update lines byte []))
    {left : BatchedVec T} (hlined : left.Lined (per_cache_line size)) (hnone : left.items = [])
    {stash : Stash T} (hstash : stash.Sound (per_cache_line size)) :
    Holds size ⟨buffer, Function.update shuffler.buckets byte left, stash⟩
      (Function.update contents byte []) := by
  refine ⟨⟨_, hbuffer, fun other => ?_⟩, (Function.forall_update_iff shuffler.buckets fun _ b =>
    BatchedVec.Lined _ b).mpr ⟨hlined, fun other _ => h.buckets other⟩, hstash⟩
  by_cases hother : other = byte
  · subst hother
    simp [hnone]
  · simp only [Function.update_of_ne hother]
    exact hcontents other

/-- What holds between the turns: the buffers so far hold `out`. -/
def Finishing (size : ℕ+) (state : List (Vec T) × Shuffler T) (contents : Fin 256 → List T)
    (out : List T) : Prop :=
  state.2.Holds size contents ∧ elements state.1 = out ∧
    ∀ vec ∈ state.1, vec.Usable (per_cache_line size)

/-- Before a line is moved there is room for it in the last buffer. -/
theorem room_spec {target : List (Vec T)} {stash : Stash T} {count : ℕ}
    (husable : ∀ vec ∈ target, vec.Usable (per_cache_line size))
    (hstash : stash.Sound (per_cache_line size)) (hcount : count ≤ per_cache_line size)
    {target' : List (Vec T)} {stash' : Stash T}
    (hroom : (if last_has_room target count then (target, stash)
      else (target ++ [stash.get.1], stash.get.2)) = (target', stash')) :
    ∃ before last, target' = before ++ [last] ∧ elements target' = elements target ∧
      count ≤ last.capacity - last.items.length ∧ stash'.Sound (per_cache_line size) ∧
      (∀ vec ∈ before, vec.Usable (per_cache_line size)) ∧ last.Usable (per_cache_line size) := by
  by_cases hlast : last_has_room target count = true
  · rw [if_pos hlast] at hroom
    obtain ⟨rfl, rfl⟩ : _ ∧ _ := by simpa using hroom
    cases hget : target.getLast? with
    | none => simp [last_has_room, hget] at hlast
    | some last =>
      have hsplit : target.dropLast ++ [last] = target := List.dropLast_append_getLast? last hget
      refine ⟨target.dropLast, last, hsplit.symm, rfl, ?_, hstash, fun vec hmem => ?_, ?_⟩
      · simpa [last_has_room, hget] using hlast
      · exact husable vec (List.mem_of_mem_dropLast hmem)
      · exact husable last (List.mem_of_getLast? hget)
  · rw [if_neg hlast] at hroom
    obtain ⟨rfl, rfl⟩ : _ ∧ _ := by simpa using hroom
    obtain ⟨hempty, hfresh, hrest⟩ := hstash.get
    refine ⟨target, stash.get.1, rfl, by simp [hempty], ?_, hrest, husable, hfresh⟩
    have := Nat.le_of_dvd hfresh.2 hfresh.1
    simp only [hempty, List.length_nil]
    omega

theorem Finishing.finish_byte {state : List (Vec T) × Shuffler T} {out : List T} (byte : Fin 256)
    (h : Finishing size state contents out) :
    ∃ state', finish_byte size state byte = some state' ∧
      Finishing size state' (Function.update contents byte []) (out ++ contents byte) := by
  obtain ⟨hholds, hout, husable⟩ := h
  obtain ⟨lines, hlines, hcontents⟩ := hholds.lines
  obtain ⟨hitems, hfinished, hlined, hempty⟩ :=
    BatchedVec.finish_spec (hholds.buckets byte).sound
  have htarget : ∀ vec ∈ state.1 ++ (state.2.buckets byte).finish.1,
      vec.Usable (per_cache_line size) := by
    intro vec hmem
    rcases List.mem_append.mp hmem with hmem | hmem
    · exact husable vec hmem
    · exact hfinished vec hmem
  rcases hroom : (if last_has_room (state.1 ++ (state.2.buckets byte).finish.1)
      (state.2.buffer.count byte) then
        (state.1 ++ (state.2.buckets byte).finish.1, state.2.stash)
      else (state.1 ++ (state.2.buckets byte).finish.1 ++ [state.2.stash.get.1],
        state.2.stash.get.2)) with ⟨target, stash⟩
  obtain ⟨before, last, rfl, hsame, hfits, hstash, hbefore, hlast⟩ := room_spec htarget hholds.stash
    (by rw [SWCBuffer.count, hlines.count]; exact hlines.bound byte) hroom
  rw [SWCBuffer.count, hlines.count] at hfits
  obtain ⟨last', hdrain, hlast_items, hcapacity⟩ := hlines.drain_into_vec hfits
  refine ⟨(before ++ [last'], ⟨state.2.buffer.reset byte,
    Function.update state.2.buckets byte (state.2.buckets byte).finish.2, stash⟩), ?_,
    hholds.emptied hcontents (hlines.reset byte) hlined hempty hstash, ?_, fun vec hmem => ?_⟩
  · simp only [Shuffler.finish_byte, BatchedVec.finish_into_eq, hroom]
    simp [hdrain]
  · rw [← hcontents byte, ← hitems, ← hout, ← List.append_assoc, ← elements_append, ← hsame]
    simp [hlast_items]
  · rcases List.mem_append.mp hmem with hmem | hmem
    · exact hbefore vec hmem
    · rw [List.mem_singleton.mp hmem, Vec.Usable, hcapacity]
      exact hlast

theorem Holds.finish_into (h : shuffler.Holds size contents) :
    ∃ out shuffler', shuffler.finish_into size [] = some (out, shuffler') ∧
      shuffler'.Holds size (fun _ => []) ∧ elements out = (List.finRange 256).flatMap contents ∧
      ∀ vec ∈ out, vec.Usable (per_cache_line size) := by
  have hstart : Finishing size (([] : List (Vec T)), shuffler) contents [] :=
    ⟨h, rfl, fun _ hmem => absurd hmem List.not_mem_nil⟩
  obtain ⟨⟨out, shuffler'⟩, hfold, hholds, hout, husable⟩ :=
    foldlM_bytes Finishing.finish_byte (List.nodup_finRange 256) hstart
  refine ⟨out, shuffler', hfold, ?_, hout, husable⟩
  simpa using hholds

end Shuffler

/-- The shuffler of the sorter. -/
def shuffling (T : Type) (size : ℕ+) : Shuffling T (Shuffler T) where
  push := Shuffler.push size
  finish_into := Shuffler.finish_into size
  stash := Shuffler.stash
  with_stash shuffler stash := { shuffler with stash := stash }

theorem shuffling_lawful (T : Type) (size : ℕ+) :
    (shuffling T size).Lawful (per_cache_line size) (Shuffler.Holds size) where
  push h := h.push
  finish_into h := h.finish_into
  stash h := h.stash
  with_stash h hstash := ⟨h.lines, h.buckets, hstash⟩

end LsbSwc

/-! ### Both sort -/

section Sorters

variable {T U : Type} [Unsigned U]

/-- Both sorters, new or used before and given back buffers that they returned, return the
    stable sort of what was pushed, by the key. -/
theorem lsb_sorters_sort (size : ℕ+) (key : T → U) (input : List T)
    {sorter : Lsb.Shuffler T} {sorter_swc : LsbSwc.Shuffler T}
    (h : Shuffling.Reached (Lsb.shuffling T) (Lsb.Shuffler.new size) sorter)
    (hswc : Shuffling.Reached (LsbSwc.shuffling T size) (LsbSwc.Shuffler.new size) sorter_swc) :
    ∃ out after out_swc after_swc,
      (Lsb.shuffling T).session key sorter input = some (out, after) ∧
      (LsbSwc.shuffling T size).session key sorter_swc input = some (out_swc, after_swc) ∧
      elements out = stable_sort (radix key) input ∧ elements out_swc = elements out := by
  have hholds := (Lsb.shuffling_lawful T size).reached Lsb.Shuffler.new_holds h
  have hholds_swc := (LsbSwc.shuffling_lawful T size).reached LsbSwc.Shuffler.new_holds hswc
  obtain ⟨out, after, hsession, -, hout, -⟩ :=
    (Lsb.shuffling_lawful T size).session key input hholds
  obtain ⟨out_swc, after_swc, hsession_swc, -, hout_swc, -⟩ :=
    (LsbSwc.shuffling_lawful T size).session key input hholds_swc
  exact ⟨out, after, out_swc, after_swc, hsession, hsession_swc, hout, hout_swc.trans hout.symm⟩

/-- New sorters: pairs that are sorted by their first components. -/
theorem lsb_sorters_sort_example : ∃ out after out_swc after_swc,
    (Lsb.shuffling (UInt16 × ℕ)).session Prod.fst (Lsb.Shuffler.new 16)
      [(300, 0), (7, 1), (300, 2), (256, 3)] = some (out, after) ∧
    (LsbSwc.shuffling (UInt16 × ℕ) 16).session Prod.fst (LsbSwc.Shuffler.new 16)
      [(300, 0), (7, 1), (300, 2), (256, 3)] = some (out_swc, after_swc) ∧
    elements out = [(7, 1), (256, 3), (300, 0), (300, 2)] ∧ elements out_swc = elements out := by
  have hsorted : stable_sort (radix (Prod.fst : UInt16 × ℕ → UInt16))
      [(300, 0), (7, 1), (300, 2), (256, 3)] = [(7, 1), (256, 3), (300, 0), (300, 2)] := by decide
  rw [← hsorted]
  exact lsb_sorters_sort 16 Prod.fst _ Shuffling.Reached.new Shuffling.Reached.new

end Sorters

end Timely.Sort
