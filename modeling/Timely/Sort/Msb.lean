/-
  Timely/Sort/Msb.lean
  ====================
  **The most significant byte sorter** (`sort/src/msb.rs`).

  Work is a stack of lists of buffers, each with a depth; on top are the elements
  that come first.  A list of several buffers is split by the byte below its
  depth and the pieces take its place on the stack; one that is a single buffer,
  or has no byte left, is sorted by comparison and moves to the result.  At any
  time the result so far, followed by what the stack sorts to, is the sorted
  input.
-/
import Timely.Library.Run
import Timely.Sort.MsbOrder
import Mathlib.Logic.Relation

set_option linter.unusedSectionVars false

namespace Timely.Sort.Msb

open Library

structure Sorter (T : Type) where
  /-- A stack of (level, items) of work to do, the top first. -/
  work : List (ℕ × List (Vec T))
  /-- Where the assembled data are put. -/
  done : BatchedVec T
  buckets : Fin 256 → BatchedVec T
  /-- Where data are staged if there are too many. -/
  stage : Vec T
  /-- Empty buffers we might be able to use. -/
  stash : Stash T

/-- How many lines the buffers that the sorter allocates hold. -/
def lines_per_page : ℕ := 2 * 4096 / 64

namespace Sorter

variable {T U : Type} [Unsigned U] (key : T → U) (action : Vec T → Vec T) (sorter : Sorter T)

def new (size : ℕ+) : Sorter T :=
  ⟨[], BatchedVec.new, fun _ => BatchedVec.new, Vec.new,
    Stash.new (lines_per_page * per_cache_line size)⟩

/-- The buckets and the stash, which a shuffler has too. -/
def shuffler : Lsb.Shuffler T := ⟨sorter.buckets, sorter.stash⟩

def with_shuffler (shuffler : Lsb.Shuffler T) : Sorter T :=
  { sorter with buckets := shuffler.buckets, stash := shuffler.stash }

/-- Pushes an element into the bucket of its most significant byte. -/
def push (element : T) : Option (Sorter T) :=
  (sorter.shuffler.push element (masked_byte key (Unsigned.bytes U - 1))).map sorter.with_shuffler

/-- Puts a bucket that is not empty on the stack. -/
def collect_byte (depth : ℕ) (sorter : Sorter T) (byte : Fin 256) : Option (Sorter T) :=
  if (sorter.buckets byte).is_empty then some sorter
  else
    let (list, bucket) := (sorter.buckets byte).finish
    some { sorter with
      work := (depth, list) :: sorter.work
      buckets := Function.update sorter.buckets byte bucket }

/-- Puts the buckets on the stack in reverse, so that popping it goes in the right order. -/
def collect (depth : ℕ) : Option (Sorter T) :=
  (List.finRange 256).reverse.foldlM (collect_byte depth) sorter

/-- Digests a list of batches. -/
def ingest (source : List (Vec T)) (depth : ℕ) : Option (Sorter T) :=
  if source.length > 1 then
    match depth with
    | depth + 1 =>
      (source.foldlM (fun shuffler batch =>
        (Lsb.shuffling T).push_batch shuffler batch (masked_byte key depth)) sorter.shuffler).bind
          fun shuffler => (sorter.with_shuffler shuffler).collect depth
    | 0 =>
      let (stage, stash) := source.foldl stage_batch (sorter.stage, sorter.stash)
      let stage := action stage
      (stage.items.foldlM push_done (sorter.done, stash)).map fun (done, stash) =>
        { sorter with stage := stage.clear, done := done, stash := stash }
  else
    match source.getLast? with
    | some batch =>
      let (done, stash) := sorter.done.push_vec sorter.stash (action batch)
      some { sorter with done := done, stash := stash }
    | none => some sorter

/-! ### Termination -/

/-- The weight of a stack. -/
def stack_weight (work : List (ℕ × List (Vec T))) : ℕ := (work.map fun item => weight item.1).sum

theorem weight_collect {depth : ℕ} {bytes : List (Fin 256)} {sorter sorter' : Sorter T}
    (h : bytes.foldlM (collect_byte depth) sorter = some sorter') :
    stack_weight sorter'.work ≤ bytes.length * weight depth + stack_weight sorter.work := by
  induction bytes generalizing sorter with
  | nil =>
    cases h
    simp
  | cons byte bytes ih =>
    obtain ⟨middle, hfirst, hrest⟩ := foldlM_cons_cases h
    have hmiddle : stack_weight middle.work ≤ weight depth + stack_weight sorter.work := by
      simp only [collect_byte] at hfirst
      split at hfirst
      · cases hfirst
        omega
      · cases hfirst
        simp [stack_weight]
    have hlater := ih hrest
    rw [List.length_cons, Nat.add_mul, Nat.one_mul]
    omega

/-- What a list leaves on the stack weighs less than the list. -/
theorem weight_ingest {source : List (Vec T)} {depth : ℕ} {sorter sorter' : Sorter T}
    (h : sorter.ingest key action source depth = some sorter') :
    stack_weight sorter'.work < weight depth + stack_weight sorter.work := by
  simp only [ingest] at h
  split at h
  · cases depth with
    | succ depth =>
      obtain ⟨shuffler, -, hcollect⟩ := Option.bind_eq_some_iff.mp h
      have hweight := weight_collect hcollect
      rw [List.length_reverse, List.length_finRange] at hweight
      have hbelow := weight_succ depth
      simp only [with_shuffler] at hweight
      omega
    | zero =>
      obtain ⟨_, -, rfl⟩ := Option.map_eq_some_iff.mp h
      have hpos := weight_pos 0
      simp only
      omega
  · have := weight_pos depth
    split at h
    · cases h
      simp only
      omega
    · cases h
      omega

set_option linter.unusedVariables false in
/-- Works off the stack. -/
def run (sorter : Sorter T) : Option (Sorter T) :=
  match hwork : sorter.work with
  | [] => some sorter
  | (depth, list) :: work =>
    match hingest : ingest key action { sorter with work := work } list depth with
    | some sorter' => run sorter'
    | none => none
termination_by stack_weight sorter.work
decreasing_by
  have hless := weight_ingest key action hingest
  simp only [hwork, stack_weight, List.map_cons, List.sum_cons]
  exact hless

/-! ### Sessions -/

/-- Finishes the sorting for the session, with an action for lists that are not split. -/
def finish_into_and (target : List (Vec T)) : Option (List (Vec T) × Sorter T) := do
  let sorter ← sorter.collect (Unsigned.bytes U - 1)
  let sorter ← sorter.run key action
  let (target, done) := sorter.done.finish_into target
  return (target, { sorter with done := done })

/-- Sorts a sequence of buffers. -/
def sort_and (source : List (Vec T)) : Option (List (Vec T) × Sorter T) :=
  if source.length > 1 then do
    let sorter ← run key action { sorter with work := (Unsigned.bytes U, source) :: sorter.work }
    let (target, done) := sorter.done.finish_into []
    return (target, { sorter with done := done })
  else return (source.map action, sorter)

/-- `RadixSorter::finish`. -/
def finish : Option (List (Vec T) × Sorter T) := sorter.finish_into_and key (sort_by key) []

/-- `RadixSorter::sort`. -/
def sort (batches : List (Vec T)) : Option (List (Vec T) × Sorter T) :=
  sorter.sort_and key (sort_by key) batches

def rebalance (buffers : List (Vec T)) (intended : ℕ) : Sorter T × List (Vec T) :=
  let (stash, buffers) := sorter.stash.rebalance buffers intended
  ({ sorter with stash := stash }, buffers)

/-- Elements are pushed, and the result is taken. -/
def push_and_finish (input : List T) : Option (List (Vec T) × Sorter T) :=
  (input.foldlM (fun (sorter : Sorter T) element => sorter.push key element) sorter).bind
    fun sorter => sorter.finish key

/-! ### What a sorter holds -/

/-- The sorter holds these elements for each byte, nothing is staged, and all buffers have room
    for whole lines. -/
structure Kept (size : ℕ+) (sorter : Sorter T) (contents : Fin 256 → List T) : Prop where
  holds : sorter.shuffler.Holds size contents
  done : sorter.done.Sound (per_cache_line size)
  stage : sorter.stage.items = []

/-- What the stack sorts to. -/
def pending (work : List (ℕ × List (Vec T))) : List T :=
  work.flatMap fun item => stable_sort (radix key) (elements item.2)

/-- A piece of work: its elements agree above its depth, and its buffers can be used again. -/
def Piece (size : ℕ+) (item : ℕ × List (Vec T)) : Prop :=
  Agree key item.1 (elements item.2) ∧ ∀ vec ∈ item.2, vec.Usable (per_cache_line size)

variable {key} {size : ℕ+} {sorter} {contents : Fin 256 → List T} {depth : ℕ}

theorem new_kept : (new size : Sorter T).Kept size fun _ => [] :=
  ⟨⟨fun _ => BatchedVec.new_sound, fun _ _ => rfl, fun _ => rfl,
    Stash.new_sound (Nat.dvd_mul_left _ _) (Nat.mul_pos (by decide) (per_cache_line_pos size))⟩,
    BatchedVec.new_sound, rfl⟩

/-- Pushed elements stand behind those that have the same byte. -/
theorem Kept.push_all (h : sorter.Kept size contents) (key : T → U) (input : List T) :
    ∃ shuffler, input.foldlM (fun (sorter : Sorter T) element => sorter.push key element) sorter
        = some (sorter.with_shuffler shuffler) ∧
      (sorter.with_shuffler shuffler).Kept size fun byte =>
        contents byte ++
          input.filter fun a => masked_byte key (Unsigned.bytes U - 1) a = byte := by
  obtain ⟨shuffler, hpush, hholds⟩ := (Lsb.shuffling_lawful T size).push_all
    (masked_byte key (Unsigned.bytes U - 1)) input h.holds
  refine ⟨shuffler, ?_, hholds, h.done, h.stage⟩
  clear hholds h
  induction input generalizing sorter with
  | nil =>
    cases hpush
    rfl
  | cons element input ih =>
    obtain ⟨middle, hfirst, hrest⟩ := foldlM_cons_cases hpush
    have hone : sorter.push key element = some (sorter.with_shuffler middle) :=
      Option.map_eq_some_iff.mpr ⟨middle, hfirst, rfl⟩
    rw [List.foldlM_cons, hone]
    exact @ih (sorter.with_shuffler middle) hrest

/-! ### The stack -/

/-- What holds while buckets are collected: the work in front of what was there sorts to
    `out`. -/
def Collecting (key : T → U) (size : ℕ+) (depth : ℕ) (start : Sorter T) (sorter : Sorter T)
    (contents : Fin 256 → List T) (out : List T) : Prop :=
  sorter.Kept size contents ∧ (∀ byte, Agree key depth (contents byte)) ∧
    sorter.done = start.done ∧ ∃ pieces, sorter.work = pieces ++ start.work ∧
      pending key pieces = out ∧ ∀ item ∈ pieces, Piece key size item

theorem Collecting.collect_byte {start : Sorter T} {out : List T} (byte : Fin 256)
    (h : Collecting key size depth start sorter contents out) :
    ∃ sorter', collect_byte depth sorter byte = some sorter' ∧
      Collecting key size depth start sorter' (Function.update contents byte [])
        (stable_sort (radix key) (contents byte) ++ out) := by
  obtain ⟨hkept, hagree, hdone, pieces, hwork, hpending, hpieces⟩ := h
  have hagree' : ∀ other, Agree key depth (Function.update contents byte [] other) :=
    (Function.forall_update_iff contents fun _ list => Agree key depth list).mpr
      ⟨Agree.nil, fun other _ => hagree other⟩
  rw [Sorter.collect_byte]
  by_cases hempty : (sorter.buckets byte).is_empty = true
  · have hnone := (hkept.holds.packed byte).is_empty_iff.mp hempty
    have hitems := hkept.holds.items byte
    simp only [shuffler] at hnone hitems
    rw [hitems] at hnone
    have hsame : Function.update contents byte [] = contents := by
      rw [← hnone, Function.update_eq_self]
    rw [if_pos hempty, hsame, hnone]
    exact ⟨sorter, rfl, hkept, hagree, hdone, pieces, hwork, hpending, hpieces⟩
  · rw [if_neg hempty]
    obtain ⟨hfinished, husable, hlined, hnone⟩ :=
      BatchedVec.finish_spec (hkept.holds.buckets byte)
    have hitems := hkept.holds.items byte
    simp only [shuffler] at hfinished husable hlined hnone hitems
    have hupdate := hkept.holds.update byte hlined.sound hlined.packed hkept.holds.stash
    rw [hnone] at hupdate
    refine ⟨{ sorter with
        work := (depth, (sorter.buckets byte).finish.1) :: sorter.work
        buckets := Function.update sorter.buckets byte (sorter.buckets byte).finish.2 }, rfl,
      ⟨hupdate, hkept.done, hkept.stage⟩, hagree', hdone,
      (depth, (sorter.buckets byte).finish.1) :: pieces, congrArg (List.cons _) hwork, ?_,
      fun item hmem => ?_⟩
    · rw [pending, List.flatMap_cons, hfinished, hitems, ← hpending, pending]
    · rcases List.mem_cons.mp hmem with rfl | hmem
      · refine ⟨?_, husable⟩
        rw [hfinished, hitems]
        exact hagree byte
      · exact hpieces item hmem

/-- Collected buckets stand in front of the work that there was, in order. -/
theorem Kept.collect (h : sorter.Kept size contents)
    (hagree : ∀ byte, Agree key depth (contents byte)) :
    ∃ sorter', sorter.collect depth = some sorter' ∧ sorter'.Kept size (fun _ => []) ∧
      sorter'.done = sorter.done ∧ ∃ pieces, sorter'.work = pieces ++ sorter.work ∧
        pending key pieces = (List.finRange 256).flatMap
          (fun byte => stable_sort (radix key) (contents byte)) ∧
        ∀ item ∈ pieces, Piece key size item := by
  have hstart : Collecting key size depth sorter sorter contents [] :=
    ⟨h, hagree, rfl, [], rfl, rfl, fun _ hmem => absurd hmem List.not_mem_nil⟩
  obtain ⟨sorter', hfold, hkept, -, hdone, pieces, hwork, hpending, hpieces⟩ :=
    foldlM_bytes_reverse Collecting.collect_byte (List.nodup_finRange 256) hstart
  refine ⟨sorter', hfold, ?_, hdone, pieces, hwork, ?_, hpieces⟩
  · simpa using hkept
  · simpa using hpending

/-! ### Working off the stack -/

/-- A piece is replaced by pieces that sort to the same, or its elements move to the result. -/
theorem Kept.ingest (h : sorter.Kept size fun _ => []) {source : List (Vec T)}
    (hpiece : Piece key size (depth, source)) :
    ∃ sorter', sorter.ingest key (sort_by key) source depth = some sorter' ∧
      sorter'.Kept size (fun _ => []) ∧ ∃ pieces, sorter'.work = pieces ++ sorter.work ∧
        (∀ item ∈ pieces, Piece key size item) ∧
        sorter'.done.items ++ pending key pieces
          = sorter.done.items ++ stable_sort (radix key) (elements source) := by
  obtain ⟨hagree, husable⟩ := hpiece
  simp only [Sorter.ingest]
  by_cases hmany : source.length > 1
  · rw [if_pos hmany]
    cases depth with
    | succ depth =>
      -- the piece is split by the byte below its depth
      obtain ⟨shuffler, hscatter, hholds⟩ := (Lsb.shuffling_lawful T size).push_batches
        (masked_byte key depth) husable h.holds
      simp only [List.nil_append] at hholds
      have hkept₁ : Kept size (sorter.with_shuffler shuffler) fun byte =>
          (elements source).filter fun a => masked_byte key depth a = byte :=
        ⟨hholds, h.done, h.stage⟩
      obtain ⟨sorter', hcollect, hkept, hdone, pieces, hwork, hpending, hpieces⟩ :=
        hkept₁.collect fun byte => Agree.filter hagree byte
      refine ⟨sorter', by simp only [hscatter, Option.bind_some, hcollect], hkept, pieces, hwork,
        hpieces, ?_⟩
      rw [hdone, hpending, ← Agree.stable_sort_eq hagree]
      rfl
    | zero =>
      -- no byte is left: the elements are sorted on the stage
      obtain ⟨hitems, hstash⟩ := stage_spec husable sorter.stage h.holds.stash
      rw [h.stage, List.nil_append] at hitems
      obtain ⟨done, stash, hpush, hdone, hstash', hout⟩ := push_done_spec
        (sort_by key (source.foldl stage_batch (sorter.stage, sorter.stash)).1).items h.done hstash
      refine ⟨{ sorter with
          stage := (sort_by key (source.foldl stage_batch (sorter.stage, sorter.stash)).1).clear
          done := done
          stash := stash }, ?_, ⟨⟨h.holds.buckets, h.holds.packed, h.holds.items, hstash'⟩, hdone,
          rfl⟩, [], rfl, fun _ hmem => absurd hmem List.not_mem_nil, ?_⟩
      · exact Option.map_eq_some_iff.mpr ⟨(done, stash), hpush, rfl⟩
      · rw [← hitems, pending, List.flatMap_nil, List.append_nil]
        exact hout
  · rw [if_neg hmany]
    cases hlast : source.getLast? with
    | none =>
      have hnil : source = [] := by simpa using hlast
      subst hnil
      exact ⟨sorter, rfl, h, [], rfl, fun _ hmem => absurd hmem List.not_mem_nil, rfl⟩
    | some batch =>
      -- a single buffer is sorted by comparison
      have hsource : source = [batch] := by
        have hsplit := List.dropLast_append_getLast? batch hlast
        have hnil : source.dropLast = [] := List.length_eq_zero_iff.mp (by
          rw [List.length_dropLast]
          omega)
        rw [← hsplit, hnil, List.nil_append]
      subst hsource
      have hbatch : (sort_by key batch).Usable (per_cache_line size) := husable batch (by simp)
      obtain ⟨hdone, hstash, hitems⟩ := BatchedVec.push_vec_spec h.done h.holds.stash hbatch
      refine ⟨_, rfl, ⟨⟨h.holds.buckets, h.holds.packed, h.holds.items, hstash⟩, hdone, h.stage⟩, [],
        rfl,
        fun _ hmem => absurd hmem List.not_mem_nil, ?_⟩
      simp only [pending, elements_cons, elements_nil, List.append_nil, List.flatMap_nil]
      exact hitems

/-- Working off the stack puts what it sorts to behind the result. -/
theorem Kept.run (h : sorter.Kept size fun _ => [])
    (hpieces : ∀ item ∈ sorter.work, Piece key size item) :
    ∃ sorter', sorter.run key (sort_by key) = some sorter' ∧ sorter'.Kept size (fun _ => []) ∧
      sorter'.work = [] ∧ sorter'.done.items = sorter.done.items ++ pending key sorter.work := by
  fun_induction Sorter.run key (sort_by key) sorter with
  | case1 sorter hwork =>
    refine ⟨sorter, rfl, h, hwork, ?_⟩
    rw [hwork]
    exact (List.append_nil _).symm
  | case2 sorter depth list work hwork sorter₁ hingest ih =>
    rw [hwork] at hpieces
    have hkept : Kept size { sorter with work := work } fun _ => [] :=
      ⟨h.holds, h.done, h.stage⟩
    obtain ⟨_, hresult, hkept₁, pieces, hwork₁, hpieces₁, hout⟩ :=
      hkept.ingest (hpieces (depth, list) List.mem_cons_self)
    rw [hingest] at hresult
    cases hresult
    obtain ⟨sorter', hrun, hkept', hempty, hdone⟩ := ih hkept₁ fun item hmem => by
      rw [hwork₁] at hmem
      rcases List.mem_append.mp hmem with hmem | hmem
      · exact hpieces₁ item hmem
      · exact hpieces item (List.mem_cons_of_mem _ hmem)
    refine ⟨sorter', hrun, hkept', hempty, ?_⟩
    simp only at hout
    rw [hdone, hwork₁, hwork, pending, List.flatMap_append, ← List.append_assoc, ← pending, hout,
      List.append_assoc]
    rfl
  | case3 sorter depth list work hwork hingest =>
    rw [hwork] at hpieces
    have hkept : Kept size { sorter with work := work } fun _ => [] :=
      ⟨h.holds, h.done, h.stage⟩
    obtain ⟨_, hresult, -⟩ := hkept.ingest (hpieces (depth, list) List.mem_cons_self)
    rw [hingest] at hresult
    cases hresult

/-! ### Between sessions -/

/-- The sorter has nothing to do and holds nothing. -/
structure Idle (size : ℕ+) (sorter : Sorter T) : Prop where
  kept : sorter.Kept size fun _ => []
  work : sorter.work = []
  done : sorter.done.items = []

theorem new_idle : (new size : Sorter T).Idle size := ⟨new_kept, rfl, rfl⟩

/-- Taking the result leaves the sorter idle. -/
theorem Kept.finish_into (h : sorter.Kept size fun _ => []) (hwork : sorter.work = []) :
    Idle size { sorter with done := sorter.done.finish.2 } ∧
      elements sorter.done.finish.1 = sorter.done.items ∧
      ∀ vec ∈ sorter.done.finish.1, vec.Usable (per_cache_line size) := by
  obtain ⟨hitems, husable, hlined, hempty⟩ := BatchedVec.finish_spec h.done
  exact ⟨⟨⟨h.holds, hlined.sound, h.stage⟩, hwork, hempty⟩, hitems, husable⟩

theorem Idle.push_and_finish (h : sorter.Idle size) (key : T → U) (input : List T) :
    ∃ out sorter', sorter.push_and_finish key input = some (out, sorter') ∧ sorter'.Idle size ∧
      elements out = stable_sort (radix key) input ∧
      ∀ vec ∈ out, vec.Usable (per_cache_line size) := by
  -- the first byte splits the input
  have hagree : Agree key (Unsigned.bytes U - 1 + 1) input := by
    rw [Nat.sub_add_cancel Unsigned.bytes_pos]
    exact agree_bytes key input
  obtain ⟨shuffler, hpush, hkept₁⟩ := h.kept.push_all key input
  simp only [List.nil_append] at hkept₁
  obtain ⟨sorter₂, hcollect, hkept₂, hdone₂, pieces, hwork₂, hpending, hpieces⟩ :=
    hkept₁.collect fun byte => hagree.filter byte
  simp only [with_shuffler, h.work, List.append_nil] at hwork₂
  obtain ⟨sorter₃, hrun, hkept₃, hwork₃, hdone₃⟩ := hkept₂.run (by rw [hwork₂]; exact hpieces)
  obtain ⟨hidle, hitems, husable⟩ := hkept₃.finish_into hwork₃
  refine ⟨_, _, ?_, hidle, ?_, husable⟩
  · rw [Sorter.push_and_finish, hpush]
    simp [Sorter.finish, finish_into_and, hcollect, hrun, BatchedVec.finish_into_eq]
  · rw [hitems, hdone₃, hdone₂, hwork₂, hpending, ← hagree.stable_sort_eq]
    simp only [with_shuffler, h.done, List.nil_append]

theorem Idle.sort (h : sorter.Idle size) (key : T → U) {batches : List (Vec T)}
    (hbatches : ∀ vec ∈ batches, vec.Usable (per_cache_line size)) :
    ∃ out sorter', sorter.sort key batches = some (out, sorter') ∧ sorter'.Idle size ∧
      elements out = stable_sort (radix key) (elements batches) ∧
      ∀ vec ∈ out, vec.Usable (per_cache_line size) := by
  rw [Sorter.sort, sort_and]
  by_cases hmany : batches.length > 1
  · rw [if_pos hmany]
    have hkept : Kept size { sorter with work := (Unsigned.bytes U, batches) :: sorter.work }
        fun _ => [] := ⟨h.kept.holds, h.kept.done, h.kept.stage⟩
    have hpieces : ∀ item ∈ (Unsigned.bytes U, batches) :: sorter.work, Piece key size item := by
      rw [h.work]
      intro item hmem
      rw [List.mem_singleton.mp hmem]
      exact ⟨agree_bytes key (elements batches), hbatches⟩
    obtain ⟨sorter₁, hrun, hkept₁, hwork₁, hdone₁⟩ := hkept.run hpieces
    obtain ⟨hidle, hitems, husable⟩ := hkept₁.finish_into hwork₁
    refine ⟨_, _, ?_, hidle, ?_, husable⟩
    · simp [hrun, BatchedVec.finish_into_eq]
    · rw [hitems, hdone₁, h.done, h.work]
      simp [pending]
  · rw [if_neg hmany]
    refine ⟨batches.map (sort_by key), sorter, rfl, h, ?_, fun vec hmem => ?_⟩
    · -- there is at most one buffer
      rcases batches with _ | ⟨batch, _ | ⟨other, rest⟩⟩
      · rfl
      · simp [sort_by]
      · simp at hmany
    · obtain ⟨batch, hbatch, rfl⟩ := List.mem_map.mp hmem
      exact hbatches batch hbatch

/-- What a sorter is used for. -/
inductive Use (size : ℕ+) : Sorter T → Sorter T → Prop
  | finished {sorter after : Sorter T} {U : Type} [Unsigned U] {key : T → U} {input : List T}
      {out : List (Vec T)} (h : sorter.push_and_finish key input = some (out, after)) :
      Use size sorter after
  | sorted {sorter after : Sorter T} {U : Type} [Unsigned U] {key : T → U}
      {batches out : List (Vec T)} (hbatches : ∀ vec ∈ batches, vec.Usable (per_cache_line size))
      (h : sorter.sort key batches = some (out, after)) : Use size sorter after
  | rebalanced {sorter : Sorter T} {buffers : List (Vec T)} (intended : ℕ)
      (hbuffers : ∀ vec ∈ buffers, vec.Usable (per_cache_line size)) :
      Use size sorter (sorter.rebalance buffers intended).1

theorem Idle.use {sorter' : Sorter T} (h : sorter.Idle size) (huse : Use size sorter sorter') :
    sorter'.Idle size := by
  cases huse with
  | @finished _ _ _ key input out hsession =>
    obtain ⟨_, _, hresult, hidle, -⟩ := h.push_and_finish key input
    rw [hsession] at hresult
    cases hresult
    exact hidle
  | @sorted _ _ _ key batches out hbatches hsession =>
    obtain ⟨_, _, hresult, hidle, -⟩ := h.sort key hbatches
    rw [hsession] at hresult
    cases hresult
    exact hidle
  | rebalanced intended hbuffers =>
    have hholds := h.kept.holds
    exact ⟨⟨⟨hholds.buckets, hholds.packed, hholds.items, hholds.stash.rebalance hbuffers⟩,
      h.kept.done, h.kept.stage⟩, h.work, h.done⟩

/-- However a sorter was used, it is idle between its sessions. -/
theorem idle_of_uses (h : Relation.ReflTransGen (Use size) (new size) sorter) :
    sorter.Idle size := by
  induction h with
  | refl => exact new_idle
  | tail _ huse ih => exact ih.use huse

end Sorter

end Timely.Sort.Msb
