/-
  Timely/Sort/MsbSwc.lean
  =======================
  **The most significant byte sorter with write combining** (`sort/src/msb_swc.rs`).

  Elements go through lines to their buckets, and a bucket that is a single buffer
  is sorted before it is put on the stack.  The invariant is that of the sorter
  without write combining, with two kinds of work.
-/
import Timely.Sort.Msb

set_option linter.unusedSectionVars false

namespace Timely.Sort.MsbSwc

open Library

/-- Work queued (stacked, actually) up to perform. -/
inductive Work (T : Type) where
  /-- Sorted results, which simply need to be moved into place. -/
  | done (batch : Vec T)
  /-- Sorting still to be done, by byte position and list of elements to sort. -/
  | sort (depth : ℕ) (list : List (Vec T))

structure Sorter (T : Type) where
  buffer : SWCBuffer T
  /-- A stack of work to do, the top first. -/
  work : List (Work T)
  /-- Where the assembled data are put. -/
  done : BatchedVec T
  buckets : Fin 256 → BatchedVec T
  /-- Where data are staged if there are too many. -/
  stage : Vec T
  /-- Empty buffers we might be able to use. -/
  stash : Stash T

namespace Sorter

variable {T U : Type} [Unsigned U] (size : ℕ+) (key : T → U) (action : Vec T → Vec T)
  (sorter : Sorter T)

def new : Sorter T :=
  ⟨SWCBuffer.new, [], BatchedVec.new, fun _ => BatchedVec.new, Vec.new, Stash.new (page size)⟩

/-- The lines, the buckets and the stash, which a shuffler has too. -/
def shuffler : LsbSwc.Shuffler T := ⟨sorter.buffer, sorter.buckets, sorter.stash⟩

def with_shuffler (shuffler : LsbSwc.Shuffler T) : Sorter T :=
  { sorter with buffer := shuffler.buffer, buckets := shuffler.buckets, stash := shuffler.stash }

/-- Puts an element into the line of its most significant byte; a full line is moved to its
    bucket before. -/
def push (element : T) : Option (Sorter T) :=
  (sorter.shuffler.push size element (masked_byte key (Unsigned.bytes U - 1))).map
    sorter.with_shuffler

/-- The work that a bucket makes. -/
def bucket_work (depth : ℕ) (list : List (Vec T)) : Work T :=
  match list with
  | [buffer] => .done (action buffer)
  | list => .sort depth list

/-- Moves the line of a byte to its bucket, and puts a bucket that is not empty on the stack. -/
def collect_byte (depth : ℕ) (sorter : Sorter T) (byte : Fin 256) : Option (Sorter T) :=
  (sorter.buffer.drain_into size byte (sorter.buckets byte) sorter.stash).map
    fun (buffer, bucket, stash) =>
      if bucket.is_empty then
        { sorter with
          buffer := buffer, buckets := Function.update sorter.buckets byte bucket, stash := stash }
      else
        let (temp, bucket) := bucket.finish_into []
        { sorter with
          buffer := buffer
          work := bucket_work action depth temp :: sorter.work
          buckets := Function.update sorter.buckets byte bucket
          stash := stash }

def collect (depth : ℕ) : Option (Sorter T) :=
  (List.finRange 256).reverse.foldlM (collect_byte size action depth) sorter

/-- Digests a list of batches. -/
def ingest (source : List (Vec T)) (depth : ℕ) : Option (Sorter T) :=
  match depth with
  | depth + 1 =>
    (source.foldlM (fun shuffler batch =>
      (LsbSwc.shuffling T size).push_batch shuffler batch (masked_byte key depth))
        sorter.shuffler).bind fun shuffler =>
          (sorter.with_shuffler shuffler).collect size action depth
  | 0 =>
    let (stage, stash) := source.foldl stage_batch (sorter.stage, sorter.stash)
    let stage := action stage
    (stage.items.foldlM push_done (sorter.done, stash)).map fun (done, stash) =>
      { sorter with stage := stage.clear, done := done, stash := stash }

/-- Performs one piece of work. -/
def perform (work : Work T) : Option (Sorter T) :=
  match work with
  | .done batch =>
    let (done, stash) := sorter.done.push_vec sorter.stash batch
    some { sorter with done := done, stash := stash }
  | .sort depth list => sorter.ingest size key action list depth

/-! ### Termination -/

/-- The weight of a piece of work. -/
def work_weight : Work T → ℕ
  | .done _ => 1
  | .sort depth _ => weight depth

/-- The weight of a stack. -/
def stack_weight (work : List (Work T)) : ℕ := (work.map work_weight).sum

theorem weight_collect {depth : ℕ} {bytes : List (Fin 256)} {sorter sorter' : Sorter T}
    (h : bytes.foldlM (collect_byte size action depth) sorter = some sorter') :
    stack_weight sorter'.work ≤ bytes.length * weight depth + stack_weight sorter.work := by
  induction bytes generalizing sorter with
  | nil =>
    cases h
    simp
  | cons byte bytes ih =>
    obtain ⟨middle, hfirst, hrest⟩ := foldlM_cons_cases h
    have hmiddle : stack_weight middle.work ≤ weight depth + stack_weight sorter.work := by
      obtain ⟨⟨buffer, bucket, stash⟩, -, rfl⟩ := Option.map_eq_some_iff.mp hfirst
      simp only
      split
      · simp only
        omega
      · have hpos := weight_pos depth
        simp only [stack_weight, List.map_cons, List.sum_cons, bucket_work]
        split
        · simp only [work_weight]
          omega
        · simp only [work_weight, le_refl]
    have hlater := ih hrest
    rw [List.length_cons, Nat.add_mul, Nat.one_mul]
    omega

/-- What a piece of work leaves on the stack weighs less than it. -/
theorem weight_perform {work : Work T} {sorter sorter' : Sorter T}
    (h : sorter.perform size key action work = some sorter') :
    stack_weight sorter'.work < work_weight work + stack_weight sorter.work := by
  cases work with
  | done batch =>
    cases h
    simp only [work_weight]
    omega
  | sort depth list =>
    simp only [perform, ingest] at h
    simp only [work_weight]
    cases depth with
    | succ depth =>
      obtain ⟨shuffler, -, hcollect⟩ := Option.bind_eq_some_iff.mp h
      have hweight := weight_collect size action hcollect
      rw [List.length_reverse, List.length_finRange] at hweight
      have hbelow := weight_succ depth
      simp only [with_shuffler] at hweight
      omega
    | zero =>
      obtain ⟨_, -, rfl⟩ := Option.map_eq_some_iff.mp h
      have hpos := weight_pos 0
      simp only
      omega

set_option linter.unusedVariables false in
/-- Works off the stack. -/
def grind_work (sorter : Sorter T) : Option (Sorter T) :=
  match hstack : sorter.work with
  | [] => some sorter
  | item :: work =>
    match hperform : perform size key action { sorter with work := work } item with
    | some sorter' => grind_work sorter'
    | none => none
termination_by stack_weight sorter.work
decreasing_by
  have hless := weight_perform size key action hperform
  simp only [hstack, stack_weight, List.map_cons, List.sum_cons]
  exact hless

/-! ### Sessions -/

/-- Finishes the sorting for the session, with an action for lists that are not split. -/
def finish_into_and (target : List (Vec T)) : Option (List (Vec T) × Sorter T) := do
  let sorter ← sorter.collect size action (Unsigned.bytes U - 1)
  let sorter ← sorter.grind_work size key action
  let (target, done) := sorter.done.finish_into target
  return (target, { sorter with done := done })

/-- Sorts a sequence of buffers. -/
def sort_and (source : List (Vec T)) : Option (List (Vec T) × Sorter T) :=
  if source.length > 1 then do
    let sorter ← grind_work size key action
      { sorter with work := .sort (Unsigned.bytes U) source :: sorter.work }
    let (target, done) := sorter.done.finish_into []
    return (target, { sorter with done := done })
  else return (source.map action, sorter)

/-- The action of `finish_into`, which leaves a vector of at most one element as it is. -/
def sort_many (vec : Vec T) : Vec T := if vec.items.length > 1 then sort_by key vec else vec

/-- `RadixSorter::finish`. -/
def finish : Option (List (Vec T) × Sorter T) :=
  sorter.finish_into_and size key (sort_many key) []

/-- `RadixSorter::sort`. -/
def sort (batches : List (Vec T)) : Option (List (Vec T) × Sorter T) :=
  sorter.sort_and size key (sort_by key) batches

def rebalance (buffers : List (Vec T)) (intended : ℕ) : Sorter T × List (Vec T) :=
  let (stash, buffers) := sorter.stash.rebalance buffers intended
  ({ sorter with stash := stash }, buffers)

/-- Elements are pushed, and the result is taken. -/
def push_and_finish (input : List T) : Option (List (Vec T) × Sorter T) :=
  (input.foldlM (fun (sorter : Sorter T) element => sorter.push size key element) sorter).bind
    fun sorter => sorter.finish size key

/-! ### What a sorter holds -/

/-- An action that sorts in place. -/
def Sorts (key : T → U) (action : Vec T → Vec T) : Prop :=
  ∀ vec, (action vec).items = stable_sort (radix key) vec.items ∧
    (action vec).capacity = vec.capacity

theorem sort_by_sorts : Sorts key (sort_by key) := fun _ => ⟨rfl, rfl⟩

theorem sort_many_sorts : Sorts key (sort_many key) := by
  intro vec
  rw [sort_many]
  split
  · exact ⟨rfl, rfl⟩
  · rename_i hfew
    refine ⟨?_, rfl⟩
    rcases hitems : vec.items with _ | ⟨element, _ | ⟨other, rest⟩⟩
    · rfl
    · rfl
    · simp [hitems] at hfew

/-- The sorter holds these elements for each byte, nothing is staged, and all buffers have room
    for whole lines. -/
structure Kept (size : ℕ+) (sorter : Sorter T) (contents : Fin 256 → List T) : Prop where
  holds : sorter.shuffler.Holds size contents
  done : sorter.done.Sound (per_cache_line size)
  stage : sorter.stage.items = []

/-- What a piece of work sorts to. -/
def sorted_work : Work T → List T
  | .done batch => batch.items
  | .sort _ list => stable_sort (radix key) (elements list)

/-- What the stack sorts to. -/
def pending (work : List (Work T)) : List T := work.flatMap (sorted_work key)

/-- A piece of work: its elements agree above its depth, and its buffers can be used again. -/
def Piece (size : ℕ+) : Work T → Prop
  | .done batch => batch.Usable (per_cache_line size)
  | .sort depth list =>
    Agree key depth (elements list) ∧ ∀ vec ∈ list, vec.Usable (per_cache_line size)

variable {size key action sorter} {contents : Fin 256 → List T} {depth : ℕ}

theorem new_kept : (new size : Sorter T).Kept size fun _ => [] :=
  ⟨LsbSwc.Shuffler.new_holds, BatchedVec.new_sound, rfl⟩

/-- Pushed elements stand behind those that have the same byte. -/
theorem Kept.push_all (h : sorter.Kept size contents) (key : T → U) (input : List T) :
    ∃ shuffler, input.foldlM (fun (sorter : Sorter T) element => sorter.push size key element)
        sorter = some (sorter.with_shuffler shuffler) ∧
      (sorter.with_shuffler shuffler).Kept size fun byte =>
        contents byte ++
          input.filter fun a => masked_byte key (Unsigned.bytes U - 1) a = byte := by
  obtain ⟨shuffler, hpush, hholds⟩ := (LsbSwc.shuffling_lawful T size).push_all
    (masked_byte key (Unsigned.bytes U - 1)) input h.holds
  refine ⟨shuffler, ?_, hholds, h.done, h.stage⟩
  clear hholds h
  induction input generalizing sorter with
  | nil =>
    cases hpush
    rfl
  | cons element input ih =>
    obtain ⟨middle, hfirst, hrest⟩ := foldlM_cons_cases hpush
    have hone : sorter.push size key element = some (sorter.with_shuffler middle) :=
      Option.map_eq_some_iff.mpr ⟨middle, hfirst, rfl⟩
    rw [List.foldlM_cons, hone]
    exact @ih (sorter.with_shuffler middle) hrest

/-! ### The stack -/

/-- The work that a bucket makes sorts to the elements of the bucket. -/
theorem bucket_work_spec (haction : Sorts key action) {list : List (Vec T)}
    (hagree : Agree key depth (elements list))
    (husable : ∀ vec ∈ list, vec.Usable (per_cache_line size)) :
    Piece key size (bucket_work action depth list) ∧
      sorted_work key (bucket_work action depth list) = stable_sort (radix key) (elements list) := by
  rcases list with _ | ⟨buffer, _ | ⟨other, rest⟩⟩
  · exact ⟨⟨hagree, husable⟩, rfl⟩
  · -- a single buffer is sorted at once
    obtain ⟨hitems, hcapacity⟩ := haction buffer
    refine ⟨?_, ?_⟩
    · rw [bucket_work, Piece, Vec.Usable, hcapacity]
      exact husable buffer (by simp)
    · rw [bucket_work, sorted_work, hitems]
      simp
  · exact ⟨⟨hagree, husable⟩, rfl⟩

/-- What holds while buckets are collected: the work in front of what was there sorts to
    `out`. -/
def Collecting (key : T → U) (size : ℕ+) (depth : ℕ) (start : Sorter T) (sorter : Sorter T)
    (contents : Fin 256 → List T) (out : List T) : Prop :=
  sorter.Kept size contents ∧ (∀ byte, Agree key depth (contents byte)) ∧
    sorter.done = start.done ∧ ∃ pieces, sorter.work = pieces ++ start.work ∧
      pending key pieces = out ∧ ∀ item ∈ pieces, Piece key size item

theorem Collecting.collect_byte (haction : Sorts key action) {start : Sorter T} {out : List T}
    (byte : Fin 256) (h : Collecting key size depth start sorter contents out) :
    ∃ sorter', collect_byte size action depth sorter byte = some sorter' ∧
      Collecting key size depth start sorter' (Function.update contents byte [])
        (stable_sort (radix key) (contents byte) ++ out) := by
  obtain ⟨hkept, hagree, hdone, pieces, hwork, hpending, hpieces⟩ := h
  have hagree' : ∀ other, Agree key depth (Function.update contents byte [] other) :=
    (Function.forall_update_iff contents fun _ list => Agree key depth list).mpr
      ⟨Agree.nil, fun other _ => hagree other⟩
  -- the line of the byte moves to its bucket
  obtain ⟨lines, hlines, hcontents⟩ := hkept.holds.lines
  obtain ⟨buffer, bucket, stash, hdrain, hlines', hbucket, hstash, hitems, hpacked, -⟩ :=
    hlines.drain_into (hkept.holds.buckets byte) hkept.holds.stash byte
  have hall : bucket.items = contents byte := hitems.trans (hcontents byte)
  simp only [shuffler] at hdrain
  have hholds : ∀ {left : BatchedVec T}, left.Lined (per_cache_line size) → left.items = [] →
      LsbSwc.Shuffler.Holds size ⟨buffer, Function.update sorter.buckets byte left, stash⟩
        (Function.update contents byte []) := fun hlined hnone =>
    hkept.holds.emptied hcontents hlines' hlined hnone hstash
  by_cases hempty : bucket.is_empty = true
  · have hnone := hpacked.is_empty_iff.mp hempty
    have hlined : bucket.Lined (per_cache_line size) := by
      refine ⟨hbucket, ?_, hpacked⟩
      rw [(List.append_eq_nil_iff.mp hnone).2]
      exact Nat.dvd_zero _
    refine ⟨{ sorter with
        buffer := buffer, buckets := Function.update sorter.buckets byte bucket, stash := stash },
      ?_, ⟨hholds hlined hnone, hkept.done, hkept.stage⟩, hagree', hdone, pieces, hwork, ?_, hpieces⟩
    · rw [Sorter.collect_byte, hdrain]
      simp [hempty]
    · rw [← hall, hnone]
      exact hpending
  · obtain ⟨hfinished, husable, hlined, hnone⟩ := BatchedVec.finish_spec hbucket
    have hbyte : Agree key depth (elements bucket.finish.1) := by
      rw [hfinished, hall]
      exact hagree byte
    obtain ⟨hpiece, hsorted⟩ := bucket_work_spec haction hbyte husable
    refine ⟨{ sorter with
        buffer := buffer
        work := bucket_work action depth bucket.finish.1 :: sorter.work
        buckets := Function.update sorter.buckets byte bucket.finish.2
        stash := stash }, ?_, ⟨hholds hlined hnone, hkept.done, hkept.stage⟩, hagree', hdone,
      bucket_work action depth bucket.finish.1 :: pieces, congrArg (List.cons _) hwork, ?_,
      fun item hmem => ?_⟩
    · rw [Sorter.collect_byte, hdrain]
      simp [hempty, BatchedVec.finish_into_eq]
    · rw [pending, List.flatMap_cons, hsorted, hfinished, hall, ← hpending, pending]
    · rcases List.mem_cons.mp hmem with rfl | hmem
      · exact hpiece
      · exact hpieces item hmem

/-- Collected buckets stand in front of the work that there was, in order. -/
theorem Kept.collect (h : sorter.Kept size contents) (haction : Sorts key action)
    (hagree : ∀ byte, Agree key depth (contents byte)) :
    ∃ sorter', sorter.collect size action depth = some sorter' ∧ sorter'.Kept size (fun _ => []) ∧
      sorter'.done = sorter.done ∧ ∃ pieces, sorter'.work = pieces ++ sorter.work ∧
        pending key pieces = (List.finRange 256).flatMap
          (fun byte => stable_sort (radix key) (contents byte)) ∧
        ∀ item ∈ pieces, Piece key size item := by
  have hstart : Collecting key size depth sorter sorter contents [] :=
    ⟨h, hagree, rfl, [], rfl, rfl, fun _ hmem => absurd hmem List.not_mem_nil⟩
  obtain ⟨sorter', hfold, hkept, -, hdone, pieces, hwork, hpending, hpieces⟩ :=
    foldlM_bytes_reverse (Collecting.collect_byte haction) (List.nodup_finRange 256) hstart
  refine ⟨sorter', hfold, ?_, hdone, pieces, hwork, ?_, hpieces⟩
  · simpa using hkept
  · simpa using hpending

/-! ### Working off the stack -/

/-- A piece is replaced by pieces that sort to the same, or its elements move to the result. -/
theorem Kept.perform (h : sorter.Kept size fun _ => []) (haction : Sorts key action)
    {work : Work T} (hpiece : Piece key size work) :
    ∃ sorter', sorter.perform size key action work = some sorter' ∧
      sorter'.Kept size (fun _ => []) ∧ ∃ pieces, sorter'.work = pieces ++ sorter.work ∧
        (∀ item ∈ pieces, Piece key size item) ∧
        sorter'.done.items ++ pending key pieces = sorter.done.items ++ sorted_work key work := by
  cases work with
  | done batch =>
    obtain ⟨hdone, hstash, hitems⟩ := BatchedVec.push_vec_spec h.done h.holds.stash hpiece
    refine ⟨_, rfl, ⟨⟨h.holds.lines, h.holds.buckets, hstash⟩, hdone, h.stage⟩, [], rfl,
      fun _ hmem => absurd hmem List.not_mem_nil, ?_⟩
    rw [pending, List.flatMap_nil, List.append_nil]
    exact hitems
  | sort depth list =>
    obtain ⟨hagree, husable⟩ := hpiece
    cases depth with
    | succ depth =>
      -- the piece is split by the byte below its depth
      obtain ⟨shuffler, hscatter, hholds⟩ := (LsbSwc.shuffling_lawful T size).push_batches
        (masked_byte key depth) husable h.holds
      simp only [List.nil_append] at hholds
      have hkept₁ : Kept size (sorter.with_shuffler shuffler) fun byte =>
          (elements list).filter fun a => masked_byte key depth a = byte :=
        ⟨hholds, h.done, h.stage⟩
      obtain ⟨sorter', hcollect, hkept, hdone, pieces, hwork, hpending, hpieces⟩ :=
        hkept₁.collect haction fun byte => Agree.filter hagree byte
      refine ⟨sorter', ?_, hkept, pieces, hwork, hpieces, ?_⟩
      · simp only [Sorter.perform, ingest, hscatter, Option.bind_some, hcollect]
      · rw [hdone, hpending, ← Agree.stable_sort_eq hagree]
        rfl
    | zero =>
      -- no byte is left: the elements are sorted on the stage
      obtain ⟨hitems, hstash⟩ := stage_spec husable sorter.stage h.holds.stash
      rw [h.stage, List.nil_append] at hitems
      obtain ⟨done, stash, hpush, hdone, hstash', hout⟩ := push_done_spec
        (action (list.foldl stage_batch (sorter.stage, sorter.stash)).1).items h.done hstash
      refine ⟨{ sorter with
          stage := (action (list.foldl stage_batch (sorter.stage, sorter.stash)).1).clear
          done := done
          stash := stash }, ?_, ⟨⟨h.holds.lines, h.holds.buckets, hstash'⟩, hdone, rfl⟩, [], rfl,
          fun _ hmem => absurd hmem List.not_mem_nil, ?_⟩
      · exact Option.map_eq_some_iff.mpr ⟨(done, stash), hpush, rfl⟩
      · rw [pending, List.flatMap_nil, List.append_nil, sorted_work, ← hitems]
        rw [(haction _).1] at hout
        exact hout

/-- Working off the stack puts what it sorts to behind the result. -/
theorem Kept.grind_work (h : sorter.Kept size fun _ => []) (haction : Sorts key action)
    (hpieces : ∀ item ∈ sorter.work, Piece key size item) :
    ∃ sorter', sorter.grind_work size key action = some sorter' ∧
      sorter'.Kept size (fun _ => []) ∧ sorter'.work = [] ∧
      sorter'.done.items = sorter.done.items ++ pending key sorter.work := by
  fun_induction Sorter.grind_work size key action sorter with
  | case1 sorter hstack =>
    refine ⟨sorter, rfl, h, hstack, ?_⟩
    rw [hstack]
    exact (List.append_nil _).symm
  | case2 sorter item work hstack sorter₁ hperform ih =>
    rw [hstack] at hpieces
    have hkept : Kept size { sorter with work := work } fun _ => [] := ⟨h.holds, h.done, h.stage⟩
    obtain ⟨_, hresult, hkept₁, pieces, hwork₁, hpieces₁, hout⟩ :=
      hkept.perform haction (hpieces item List.mem_cons_self)
    rw [hperform] at hresult
    cases hresult
    obtain ⟨sorter', hrun, hkept', hempty, hdone⟩ := ih hkept₁ fun item hmem => by
      rw [hwork₁] at hmem
      rcases List.mem_append.mp hmem with hmem | hmem
      · exact hpieces₁ item hmem
      · exact hpieces item (List.mem_cons_of_mem _ hmem)
    refine ⟨sorter', hrun, hkept', hempty, ?_⟩
    simp only at hout
    rw [hdone, hwork₁, hstack, pending, List.flatMap_append, ← List.append_assoc, ← pending, hout,
      List.append_assoc]
    rfl
  | case3 sorter item work hstack hperform =>
    rw [hstack] at hpieces
    have hkept : Kept size { sorter with work := work } fun _ => [] := ⟨h.holds, h.done, h.stage⟩
    obtain ⟨_, hresult, -⟩ := hkept.perform haction (hpieces item List.mem_cons_self)
    rw [hperform] at hresult
    cases hresult

/-! ### Between sessions -/

/-- The sorter has nothing to do and holds nothing. -/
structure Idle (size : ℕ+) (sorter : Sorter T) : Prop where
  kept : sorter.Kept size fun _ => []
  work : sorter.work = []
  done : sorter.done.items = []

theorem new_idle : (new size : Sorter T).Idle size := ⟨new_kept, rfl, rfl⟩

/-- Taking the result leaves the sorter idle. -/
theorem Kept.finish_into (h : sorter.Kept size fun _ => []) (hwork : sorter.work = []) :
    Idle size { sorter with done := sorter.done.finish.2 } ∧
      elements sorter.done.finish.1 = sorter.done.items ∧
      ∀ vec ∈ sorter.done.finish.1, vec.Usable (per_cache_line size) := by
  obtain ⟨hitems, husable, hlined, hempty⟩ := BatchedVec.finish_spec h.done
  exact ⟨⟨⟨h.holds, hlined.sound, h.stage⟩, hwork, hempty⟩, hitems, husable⟩

theorem Idle.push_and_finish (h : sorter.Idle size) (key : T → U) (input : List T) :
    ∃ out sorter', sorter.push_and_finish size key input = some (out, sorter') ∧
      sorter'.Idle size ∧ elements out = stable_sort (radix key) input ∧
      ∀ vec ∈ out, vec.Usable (per_cache_line size) := by
  -- the first byte splits the input
  have hagree : Agree key (Unsigned.bytes U - 1 + 1) input := by
    rw [Nat.sub_add_cancel Unsigned.bytes_pos]
    exact agree_bytes key input
  obtain ⟨shuffler, hpush, hkept₁⟩ := h.kept.push_all key input
  simp only [List.nil_append] at hkept₁
  obtain ⟨sorter₂, hcollect, hkept₂, hdone₂, pieces, hwork₂, hpending, hpieces⟩ :=
    hkept₁.collect (sort_many_sorts key) fun byte => hagree.filter byte
  simp only [with_shuffler, h.work, List.append_nil] at hwork₂
  obtain ⟨sorter₃, hrun, hkept₃, hwork₃, hdone₃⟩ :=
    hkept₂.grind_work (sort_many_sorts key) (by rw [hwork₂]; exact hpieces)
  obtain ⟨hidle, hitems, husable⟩ := hkept₃.finish_into hwork₃
  refine ⟨_, _, ?_, hidle, ?_, husable⟩
  · rw [Sorter.push_and_finish, hpush]
    simp [Sorter.finish, finish_into_and, hcollect, hrun, BatchedVec.finish_into_eq]
  · rw [hitems, hdone₃, hdone₂, hwork₂, hpending, ← hagree.stable_sort_eq]
    simp only [with_shuffler, h.done, List.nil_append]

theorem Idle.sort (h : sorter.Idle size) (key : T → U) {batches : List (Vec T)}
    (hbatches : ∀ vec ∈ batches, vec.Usable (per_cache_line size)) :
    ∃ out sorter', sorter.sort size key batches = some (out, sorter') ∧ sorter'.Idle size ∧
      elements out = stable_sort (radix key) (elements batches) ∧
      ∀ vec ∈ out, vec.Usable (per_cache_line size) := by
  rw [Sorter.sort, sort_and]
  by_cases hmany : batches.length > 1
  · rw [if_pos hmany]
    have hkept : Kept size { sorter with work := .sort (Unsigned.bytes U) batches :: sorter.work }
        fun _ => [] := ⟨h.kept.holds, h.kept.done, h.kept.stage⟩
    have hpieces : ∀ item ∈ Work.sort (Unsigned.bytes U) batches :: sorter.work,
        Piece key size item := by
      rw [h.work]
      intro item hmem
      rw [List.mem_singleton.mp hmem]
      exact ⟨agree_bytes key (elements batches), hbatches⟩
    obtain ⟨sorter₁, hrun, hkept₁, hwork₁, hdone₁⟩ := hkept.grind_work (sort_by_sorts key) hpieces
    obtain ⟨hidle, hitems, husable⟩ := hkept₁.finish_into hwork₁
    refine ⟨_, _, ?_, hidle, ?_, husable⟩
    · simp [hrun, BatchedVec.finish_into_eq]
    · rw [hitems, hdone₁, h.done, h.work]
      simp [pending, sorted_work]
  · rw [if_neg hmany]
    refine ⟨batches.map (sort_by key), sorter, rfl, h, ?_, fun vec hmem => ?_⟩
    · -- there is at most one buffer
      rcases batches with _ | ⟨batch, _ | ⟨other, rest⟩⟩
      · rfl
      · simp [sort_by]
      · simp at hmany
    · obtain ⟨batch, hbatch, rfl⟩ := List.mem_map.mp hmem
      exact hbatches batch hbatch

/-- What a sorter is used for. -/
inductive Use (size : ℕ+) : Sorter T → Sorter T → Prop
  | finished {sorter after : Sorter T} {U : Type} [Unsigned U] {key : T → U} {input : List T}
      {out : List (Vec T)} (h : sorter.push_and_finish size key input = some (out, after)) :
      Use size sorter after
  | sorted {sorter after : Sorter T} {U : Type} [Unsigned U] {key : T → U}
      {batches out : List (Vec T)} (hbatches : ∀ vec ∈ batches, vec.Usable (per_cache_line size))
      (h : sorter.sort size key batches = some (out, after)) : Use size sorter after
  | rebalanced {sorter : Sorter T} {buffers : List (Vec T)} (intended : ℕ)
      (hbuffers : ∀ vec ∈ buffers, vec.Usable (per_cache_line size)) :
      Use size sorter (sorter.rebalance buffers intended).1

theorem Idle.use {sorter' : Sorter T} (h : sorter.Idle size) (huse : Use size sorter sorter') :
    sorter'.Idle size := by
  cases huse with
  | @finished _ _ _ key input out hsession =>
    obtain ⟨_, _, hresult, hidle, -⟩ := h.push_and_finish key input
    rw [hsession] at hresult
    cases hresult
    exact hidle
  | @sorted _ _ _ key batches out hbatches hsession =>
    obtain ⟨_, _, hresult, hidle, -⟩ := h.sort key hbatches
    rw [hsession] at hresult
    cases hresult
    exact hidle
  | rebalanced intended hbuffers =>
    have hholds := h.kept.holds
    exact ⟨⟨⟨hholds.lines, hholds.buckets, hholds.stash.rebalance hbuffers⟩, h.kept.done,
      h.kept.stage⟩, h.work, h.done⟩

/-- However a sorter was used, it is idle between its sessions. -/
theorem idle_of_uses (h : Relation.ReflTransGen (Use size) (new size) sorter) :
    sorter.Idle size := by
  induction h with
  | refl => exact new_idle
  | tail _ huse ih => exact ih.use huse

end Sorter

end Timely.Sort.MsbSwc

namespace Timely.Sort

open Library

/-- The two most significant byte sorters, however they were used before, return the stable sort
    of the batches given to `sort`, and of the elements pushed before `finish`. -/
theorem msb_sorters_sort {T U : Type} [Unsigned U] (size : ℕ+) (key : T → U)
    {sorter : Msb.Sorter T} {sorter_swc : MsbSwc.Sorter T}
    (h : Relation.ReflTransGen (Msb.Sorter.Use size) (Msb.Sorter.new size) sorter)
    (hswc : Relation.ReflTransGen (MsbSwc.Sorter.Use size) (MsbSwc.Sorter.new size) sorter_swc) :
    (∀ batches : List (Vec T),
      (∀ vec ∈ batches, per_cache_line size ∣ vec.capacity ∧ 0 < vec.capacity) →
      (∃ out after, sorter.sort key batches = some (out, after) ∧
        elements out = stable_sort (radix key) (elements batches)) ∧
      ∃ out after, sorter_swc.sort size key batches = some (out, after) ∧
        elements out = stable_sort (radix key) (elements batches)) ∧
    ∀ input : List T,
      (∃ out after, sorter.push_and_finish key input = some (out, after) ∧
        elements out = stable_sort (radix key) input) ∧
      ∃ out after, sorter_swc.push_and_finish size key input = some (out, after) ∧
        elements out = stable_sort (radix key) input := by
  have hidle := Msb.Sorter.idle_of_uses h
  have hidle_swc := MsbSwc.Sorter.idle_of_uses hswc
  refine ⟨fun batches hbatches => ⟨?_, ?_⟩, fun input => ⟨?_, ?_⟩⟩
  · obtain ⟨out, after, hsort, -, hout, -⟩ := hidle.sort key hbatches
    exact ⟨out, after, hsort, hout⟩
  · obtain ⟨out, after, hsort, -, hout, -⟩ := hidle_swc.sort key hbatches
    exact ⟨out, after, hsort, hout⟩
  · obtain ⟨out, after, hfinish, -, hout, -⟩ := hidle.push_and_finish key input
    exact ⟨out, after, hfinish, hout⟩
  · obtain ⟨out, after, hfinish, -, hout, -⟩ := hidle_swc.push_and_finish key input
    exact ⟨out, after, hfinish, hout⟩

/-- Two batches of pairs that are sorted by their first components, by new sorters. -/
theorem msb_sorters_sort_example :
    (∃ out after, (Msb.Sorter.new 16).sort (Prod.fst : UInt16 × ℕ → UInt16)
        [⟨[(300, 0), (7, 1)], 4, by decide⟩, ⟨[(300, 2), (256, 3)], 8, by decide⟩]
          = some (out, after) ∧
      elements out = [(7, 1), (256, 3), (300, 0), (300, 2)]) ∧
    ∃ out after, (MsbSwc.Sorter.new 16).sort 16 (Prod.fst : UInt16 × ℕ → UInt16)
        [⟨[(300, 0), (7, 1)], 4, by decide⟩, ⟨[(300, 2), (256, 3)], 8, by decide⟩]
          = some (out, after) ∧
      elements out = [(7, 1), (256, 3), (300, 0), (300, 2)] := by
  have hsorted : stable_sort (radix (Prod.fst : UInt16 × ℕ → UInt16))
      [(300, 0), (7, 1), (300, 2), (256, 3)] = [(7, 1), (256, 3), (300, 0), (300, 2)] := by decide
  rw [← hsorted]
  exact (msb_sorters_sort 16 (Prod.fst : UInt16 × ℕ → UInt16) Relation.ReflTransGen.refl
    Relation.ReflTransGen.refl).1 _ (by decide)

end Timely.Sort
