/-
  Timely/Network/SharedSlices.lean
  ================================
  **Slices that a queue merges** (`allocator/zero_copy/bytes_exchange.rs` over
  `bytes/src/lib.rs`).

  A queue of bytes holds slices of shared allocations.  What it is given is merged
  with its last slice, one by one, where the two are adjacent ranges of the same
  allocation; nothing else happens to slices, so that a queue reads the same bytes
  in the same order, and what threads do with slices that they hold does not
  concern it.
-/
import Timely.Bytes
import Timely.Network.MergeQueue
import Mathlib.Logic.Relation

set_option linter.unusedSectionVars false

namespace Timely.Network

/-! ### Merges of adjacent slices -/

/-- Two neighbours in a list, adjacent ranges of the same allocation, become one. -/
inductive MergeStep : List Bytes → List Bytes → Prop
  | merge {front back : List Bytes} {b other : Bytes} :
      b.sequestered = other.sequestered → b.ptr + b.len = other.ptr →
      MergeStep (front ++ b :: other :: back)
        (front ++ { b with len := b.len + other.len } :: back)

/-- Any number of such merges, and nothing else. -/
abbrev Merged : List Bytes → List Bytes → Prop := Relation.ReflTransGen MergeStep

/-- The bytes of some slices, in order. -/
def contents (memory : Memory) (slices : List Bytes) : List UInt8 :=
  slices.flatMap (Bytes.deref memory)

@[simp] theorem contents_nil (memory : Memory) : contents memory [] = [] := rfl

@[simp] theorem contents_cons (memory : Memory) (b : Bytes) (slices : List Bytes) :
    contents memory (b :: slices) = b.deref memory ++ contents memory slices := rfl

@[simp] theorem contents_append (memory : Memory) (slices more : List Bytes) :
    contents memory (slices ++ more) = contents memory slices ++ contents memory more :=
  List.flatMap_append

theorem contents_congr {memory memory' : Memory} {slices : List Bytes}
    (h : ∀ b ∈ slices, b.deref memory' = b.deref memory) :
    contents memory' slices = contents memory slices :=
  List.flatMap_congr h

/-- Memories with the same values read the same. -/
theorem deref_of_value {memory memory' : Memory} (h : ∀ id, memory'.value id = memory.value id)
    (b : Bytes) : b.deref memory' = b.deref memory := by
  rw [Bytes.deref, Bytes.deref, h]

section Merged

variable {memory : Memory} {slices slices' more : List Bytes} {b other : Bytes}

theorem MergeStep.append_left (h : MergeStep slices slices') :
    MergeStep (more ++ slices) (more ++ slices') := by
  cases h with
  | merge hsame hnext =>
    rw [← List.append_assoc, ← List.append_assoc]
    exact MergeStep.merge hsame hnext

theorem MergeStep.append_right (h : MergeStep slices slices') :
    MergeStep (slices ++ more) (slices' ++ more) := by
  cases h with
  | merge hsame hnext =>
    rw [List.append_assoc, List.append_assoc]
    exact MergeStep.merge hsame hnext

theorem Merged.append_left (h : Merged slices slices') :
    Merged (more ++ slices) (more ++ slices') := by
  induction h with
  | refl => exact Relation.ReflTransGen.refl
  | tail _ hstep ih => exact ih.tail hstep.append_left

theorem Merged.append_right (h : Merged slices slices') :
    Merged (slices ++ more) (slices' ++ more) := by
  induction h with
  | refl => exact Relation.ReflTransGen.refl
  | tail _ hstep ih => exact ih.tail hstep.append_right

theorem MergeStep.contents_eq (h : MergeStep slices slices') (memory : Memory) :
    contents memory slices' = contents memory slices := by
  cases h with
  | merge hsame hnext =>
    simp only [contents_append, contents_cons, Bytes.deref, Library.window_append, hsame, hnext,
      List.append_assoc]

/-- Slices that were merged read the same bytes. -/
theorem Merged.contents_eq (h : Merged slices slices') (memory : Memory) :
    contents memory slices' = contents memory slices := by
  induction h with
  | refl => rfl
  | tail _ hstep ih => exact (hstep.contents_eq memory).trans ih

/-- The source merges no others. -/
theorem merged_of_try_merge {memory' : Memory} {merged : Bytes}
    (h : b.try_merge memory other = .ok (memory', merged)) (back : List Bytes) :
    Merged (b :: other :: back) (merged :: back) := by
  rw [Bytes.try_merge] at h
  split at h
  case isFalse => cases h
  case isTrue hadjacent =>
    obtain ⟨-, rfl⟩ := Prod.mk.inj (Except.ok.inj h)
    exact Relation.ReflTransGen.single
      (@MergeStep.merge [] back b other hadjacent.1 hadjacent.2)

theorem eq_of_try_merge {returned : Bytes} (h : b.try_merge memory other = .error returned) :
    returned = other := by
  rw [Bytes.try_merge] at h
  split at h
  · cases h
  · exact (Except.error.inj h).symm

end Merged

/-! ### Extending a queue -/

namespace SharedQueue

/-- Appends to a popped `tail`, slice by slice. -/
def merge_all : Memory → Bytes → List Bytes → Memory × List Bytes
  | memory, tail, [] => (memory, [tail])
  | memory, tail, bytes :: items =>
    match tail.try_merge memory bytes with
    | .ok (memory, tail) => merge_all memory tail items
    | .error bytes =>
      let (memory, queue) := merge_all memory bytes items
      (memory, tail :: queue)

/-- Pushes many slices at the queue. -/
def extend (memory : Memory) (queue items : List Bytes) : Memory × List Bytes :=
  match items with
  | [] => (memory, queue)
  | bytes :: items =>
    match queue.getLast? with
    | some tail =>
      let (memory, merged) := merge_all memory tail (bytes :: items)
      (memory, queue.dropLast ++ merged)
    | none => merge_all memory bytes items

variable {memory memory' : Memory} {tail : Bytes} {queue queue' items rest : List Bytes}

/-- What happens to slices that are pushed: some are merged, their bytes stay, and they are owned
    as before. -/
structure Extends (memory : Memory) (slices : List Bytes) (memory' : Memory) (queue : List Bytes) :
    Prop where
  merged : Merged slices queue
  value : ∀ id, memory'.value id = memory.value id
  owned : ∀ rest, Owned memory (slices ++ rest) → Owned memory' (queue ++ rest)

theorem merge_all_spec (memory : Memory) (tail : Bytes) (items : List Bytes) :
    Extends memory (tail :: items) (merge_all memory tail items).1
      (merge_all memory tail items).2 := by
  induction items generalizing memory tail with
  | nil => exact ⟨Relation.ReflTransGen.refl, fun _ => rfl, fun _ h => h⟩
  | cons bytes items ih =>
    cases hmerge : tail.try_merge memory bytes with
    | ok merged =>
      obtain ⟨memory₁, merged⟩ := merged
      obtain ⟨-, hvalue⟩ := Owned.deref_try_merge hmerge
      obtain ⟨hrest, hvalue', howned⟩ := ih memory₁ merged
      rw [merge_all, hmerge]
      exact ⟨(merged_of_try_merge hmerge items).trans hrest,
        fun id => (hvalue' id).trans (hvalue id), fun rest h => howned rest (h.try_merge hmerge)⟩
    | error returned =>
      obtain rfl := eq_of_try_merge hmerge
      obtain ⟨hrest, hvalue, howned⟩ := ih memory returned
      rw [merge_all, hmerge]
      refine ⟨@Merged.append_left _ _ [tail] hrest, hvalue, fun rest h => ?_⟩
      exact (howned (tail :: rest) (h.perm List.perm_middle.symm)).perm List.perm_middle

/-- However slices are pushed at a queue, only adjacent ones are merged. -/
theorem extend_spec (memory : Memory) (queue items : List Bytes) :
    Extends memory (queue ++ items) (extend memory queue items).1 (extend memory queue items).2 := by
  rcases items with _ | ⟨bytes, items⟩
  · rw [List.append_nil]
    exact ⟨Relation.ReflTransGen.refl, fun _ => rfl, fun _ h => h⟩
  · rw [extend]
    cases hlast : queue.getLast? with
    | some tail =>
      have hall : queue ++ bytes :: items = queue.dropLast ++ tail :: bytes :: items := by
        nth_rewrite 1 [← List.dropLast_append_getLast? tail hlast]
        rw [List.append_assoc, List.singleton_append]
      obtain ⟨hmerged, hvalue, howned⟩ := merge_all_spec memory tail (bytes :: items)
      rw [hall]
      refine ⟨hmerged.append_left, hvalue, fun rest h => ?_⟩
      rw [List.append_assoc] at h ⊢
      exact (howned _ (h.perm (List.perm_append_comm_assoc _ _ _))).perm
        (List.perm_append_comm_assoc _ _ _)
    | none =>
      rw [List.getLast?_eq_none_iff.mp hlast]
      exact merge_all_spec memory bytes items

/-! ### Without the allocations -/

theorem merge_all_refines (memory : Memory) (tail : Bytes) (items : List Bytes) :
    ∃ merges, (merge_all memory tail items).2.map (Bytes.deref memory)
      = MergeQueue.merge_all merges (tail.deref memory) (items.map (Bytes.deref memory)) := by
  induction items generalizing memory tail with
  | nil => exact ⟨[], rfl⟩
  | cons bytes items ih =>
    cases hmerge : tail.try_merge memory bytes with
    | ok merged =>
      obtain ⟨memory', merged⟩ := merged
      obtain ⟨hderef, hvalue⟩ := Owned.deref_try_merge hmerge
      obtain ⟨merges, hmerges⟩ := ih memory' merged
      refine ⟨true :: merges, ?_⟩
      rw [merge_all, hmerge, List.map_cons, MergeQueue.merge_all, ← hderef,
        ← funext (deref_of_value hvalue)]
      exact hmerges
    | error returned =>
      obtain rfl := eq_of_try_merge hmerge
      obtain ⟨merges, hmerges⟩ := ih memory returned
      refine ⟨false :: merges, ?_⟩
      rw [merge_all, hmerge, List.map_cons, List.map_cons, hmerges, MergeQueue.merge_all]

/-- A queue of slices is extended as one of their bytes is, with some outcome of the merges. -/
theorem extend_refines (memory : Memory) (queue items : List Bytes) :
    ∃ merges, (extend memory queue items).2.map (Bytes.deref memory)
      = MergeQueue.extend merges (queue.map (Bytes.deref memory))
        (items.map (Bytes.deref memory)) := by
  rcases items with _ | ⟨bytes, items⟩
  · exact ⟨[], rfl⟩
  · unfold extend MergeQueue.extend
    rw [List.getLast?_map]
    cases queue.getLast? with
    | some tail =>
      obtain ⟨merges, hmerges⟩ := merge_all_refines memory tail (bytes :: items)
      refine ⟨merges, ?_⟩
      rw [List.map_append, hmerges, List.map_dropLast]
      rfl
    | none => exact merge_all_refines memory bytes items

end SharedQueue

/-! ### Slices that threads hold -/

/-- What threads do with slices that they hold, in no order: they allocate, cut, merge, regenerate,
    write and drop them. -/
inductive Elsewhere (memory : Memory) (held : List Bytes) : Memory → List Bytes → Prop
  | from_allocation (bytes : List UInt8) :
      Elsewhere memory held (Bytes.from_allocation memory bytes).1
        ((Bytes.from_allocation memory bytes).2 :: held)
  | extract_to {memory' : Memory} {rest : List Bytes} {b front back : Bytes} {index : ℕ} :
      held.Perm (b :: rest) → b.extract_to memory index = some (memory', front, back) →
      Elsewhere memory held memory' (front :: back :: rest)
  | try_merge {memory' : Memory} {rest : List Bytes} {b other merged : Bytes} :
      held.Perm (b :: other :: rest) → b.try_merge memory other = .ok (memory', merged) →
      Elsewhere memory held memory' (merged :: rest)
  | try_regenerate {rest : List Bytes} {b whole : Bytes} :
      held.Perm (b :: rest) → b.try_regenerate memory = (true, whole) →
      Elsewhere memory held memory (whole :: rest)
  | deref_mut {memory' : Memory} {b : Bytes} {start : ℕ} {bytes : List UInt8} :
      b ∈ held → b.deref_mut memory start bytes = some memory' → Elsewhere memory held memory' held
  | drop {rest : List Bytes} {b : Bytes} :
      held.Perm (b :: rest) → Elsewhere memory held (b.drop memory) rest

/-- This keeps slices owned, and leaves those alone that others hold. -/
theorem Elsewhere.keeps {memory memory' : Memory} {held held' others : List Bytes}
    (h : Elsewhere memory held memory' held') (howned : Owned memory (others ++ held)) :
    Owned memory' (others ++ held') ∧ ∀ b ∈ others, b.deref memory' = b.deref memory := by
  -- slices that are taken out come first
  have hfirst : ∀ {taken rest : List Bytes}, held.Perm (taken ++ rest) →
      Owned memory (taken ++ (others ++ rest)) := fun hperm =>
    howned.perm ((hperm.append_left others).trans (List.perm_append_comm_assoc _ _ _))
  have hlast : ∀ {memory' : Memory} {taken rest : List Bytes},
      Owned memory' (taken ++ (others ++ rest)) → Owned memory' (others ++ (taken ++ rest)) :=
    fun h => h.perm (List.perm_append_comm_assoc _ _ _)
  cases h with
  | from_allocation bytes =>
    exact ⟨@hlast _ [_] held (howned.from_allocation bytes), fun b hmem =>
      howned.deref_from_allocation bytes (List.mem_append_left _ hmem)⟩
  | @extract_to _ rest b front back index hperm hcut =>
    obtain ⟨-, -, hvalue⟩ := Owned.deref_extract_to hcut
    exact ⟨@hlast _ [front, back] rest ((@hfirst [b] rest hperm).extract_to hcut),
      fun c _ => deref_of_value hvalue c⟩
  | @try_merge _ rest b other merged hperm hmerge =>
    obtain ⟨-, hvalue⟩ := Owned.deref_try_merge hmerge
    exact ⟨@hlast _ [merged] rest ((@hfirst [b, other] rest hperm).try_merge hmerge),
      fun c _ => deref_of_value hvalue c⟩
  | @try_regenerate rest b whole hperm hwhole =>
    obtain ⟨hregenerated, -⟩ := (@hfirst [b] rest hperm).try_regenerate hwhole
    exact ⟨@hlast _ [whole] rest hregenerated, fun _ _ => rfl⟩
  | @deref_mut _ b start bytes hmem hwrite =>
    have hb : b ∈ others ++ held := List.mem_append_right _ hmem
    refine ⟨howned.deref_mut hb hwrite, fun c hc => howned.deref_deref_mut hb hwrite ?_⟩
    -- a slice of somebody else has no byte in common with the part written
    obtain ⟨hroom, -⟩ := Owned.deref_mut_eq_some_iff.mp hwrite
    have hapart := (List.pairwise_append.mp howned.apart).2.2 c hc b hmem
    have hpart : Bytes.Apart { b with ptr := b.ptr + start, len := bytes.length } c :=
      hapart.symm.of_part rfl (Nat.le_add_right _ _) (by simp only; omega)
    exact hpart.symm
  | @drop _ b hperm =>
    exact ⟨(@hfirst [b] held' hperm).drop, fun c _ => Owned.deref_drop⟩

end Timely.Network
