/-
  Timely/Sort/Writes.lean
  =======================
  **Unchecked writes** (`push` of `sort/src/batched_vec.rs`, from `lsb.rs` and
  `msb.rs`).

  A full tail is replaced by a buffer of the stash, and the next element is
  written there without a look at its capacity.  Buffers of the user come into
  the stash as they are.  So one of capacity zero is written outside of, and as
  long as there is none all writes stay inside.
-/
import Timely.Sort.Calls

set_option linter.unusedSectionVars false

namespace Timely.Sort

open Library

/-- What is not empty has room for lines of one element. -/
theorem Vec.usable_one {T : Type} {vec : Vec T} (h : 0 < vec.capacity) : vec.Usable 1 :=
  ⟨Nat.one_dvd _, h⟩

/-- An element is written exactly where there is room for it, after `reserve`. -/
theorem BatchedVec.push_eq_none_iff {T : Type} (b : BatchedVec T) (stash : Stash T) (element : T) :
    b.push stash element = none ↔
      (b.reserve stash).1.tail.capacity ≤ (b.reserve stash).1.tail.items.length := by
  rcases hreserve : b.reserve stash with ⟨b₁, stash₁⟩
  simp only [push, hreserve]
  by_cases hroom : b₁.tail.items.length + 1 ≤ b₁.tail.capacity
  · rw [dif_pos hroom]
    simp only [reduceCtorEq, false_iff]
    omega
  · rw [dif_neg hroom]
    simp only [true_iff]
    omega

/-! ### Without write combining, least significant byte first -/

namespace Lsb.Shuffler

variable {T : Type} {line : ℕ} {shuffler : Shuffler T}

/-- All buffers have room for whole lines. -/
structure Roomy (line : ℕ) (shuffler : Shuffler T) : Prop where
  buckets : ∀ byte, (shuffler.buckets byte).Sound line
  stash : shuffler.stash.Sound line

theorem Roomy.update (h : shuffler.Roomy line) (byte : Fin 256) {bucket : BatchedVec T}
    {stash : Stash T} (hbucket : bucket.Sound line) (hstash : stash.Sound line) :
    Roomy line ⟨Function.update shuffler.buckets byte bucket, stash⟩ :=
  ⟨(Function.forall_update_iff shuffler.buckets fun _ b => b.Sound line).mpr
    ⟨hbucket, fun other _ => h.buckets other⟩, hstash⟩

theorem Roomy.push (h : shuffler.Roomy line) (element : T) (function : T → Fin 256) :
    ∃ shuffler', shuffler.push element function = some shuffler' ∧ shuffler'.Roomy line := by
  obtain ⟨bucket, stash, hpush, hbucket, hstash, -⟩ :=
    BatchedVec.push_spec (h.buckets (function element)) h.stash element
  refine ⟨_, ?_, h.update (function element) hbucket hstash⟩
  rw [Shuffler.push, hpush]
  rfl

theorem Roomy.finish_bytes (bytes : List (Fin 256)) {target : List (Vec T)}
    (h : shuffler.Roomy line) (htarget : ∀ vec ∈ target, vec.Usable line) :
    ∃ out shuffler', bytes.foldlM finish_byte (target, shuffler) = some (out, shuffler') ∧
      shuffler'.Roomy line ∧ ∀ vec ∈ out, vec.Usable line := by
  have hfold : ∃ last : List (Vec T) × Shuffler T, bytes.foldlM finish_byte (target, shuffler) = some last ∧
      last.2.Roomy line ∧ ∀ vec ∈ last.1, vec.Usable line := by
    refine exists_foldlM (P := fun state : List (Vec T) × Shuffler T =>
      state.2.Roomy line ∧ ∀ vec ∈ state.1, vec.Usable line) ⟨h, htarget⟩ ?_
    rintro ⟨target, shuffler⟩ byte _ ⟨hroomy, htarget⟩
    obtain ⟨-, husable, hlined, -⟩ := BatchedVec.finish_spec (hroomy.buckets byte)
    have hbyte : finish_byte (target, shuffler) byte = some
        (target ++ (shuffler.buckets byte).finish.1, { shuffler with
          buckets := Function.update shuffler.buckets byte (shuffler.buckets byte).finish.2 }) := by
      rw [finish_byte, BatchedVec.finish_into_eq]
    exact ⟨_, hbyte, hroomy.update byte hlined.sound hroomy.stash,
      List.forall_mem_append.mpr ⟨htarget, husable⟩⟩
  obtain ⟨⟨out, shuffler'⟩, hbytes, hroomy, hout⟩ := hfold
  exact ⟨out, shuffler', hbytes, hroomy, hout⟩

end Lsb.Shuffler

theorem Lsb.shuffling_safe (T : Type) (line : ℕ) :
    (Lsb.shuffling T).Safe line (Lsb.Shuffler.Roomy line) where
  push h := h.push
  finish_into h := h.finish_bytes (List.finRange 256) fun _ hmem => absurd hmem List.not_mem_nil
  stash h := h.stash
  with_stash h hstash := ⟨h.buckets, hstash⟩

/-! ### Without write combining, most significant byte first -/

namespace Msb.Sorter

variable {T U : Type} [Unsigned U] {line : ℕ} {sorter : Sorter T} {depth : ℕ}

/-- All buffers have room for whole lines. -/
structure Roomy (line : ℕ) (sorter : Sorter T) : Prop where
  shuffler : sorter.shuffler.Roomy line
  done : sorter.done.Sound line
  work : ∀ item ∈ sorter.work, ∀ vec ∈ item.2, vec.Usable line

theorem Roomy.collect_bytes (depth : ℕ) (bytes : List (Fin 256)) (h : sorter.Roomy line) :
    ∃ sorter', bytes.foldlM (collect_byte depth) sorter = some sorter' ∧ sorter'.Roomy line := by
  refine exists_foldlM h ?_
  intro before byte _ hbefore
  rw [collect_byte]
  by_cases hempty : (before.buckets byte).is_empty = true
  · rw [if_pos hempty]
    exact ⟨before, rfl, hbefore⟩
  · rw [if_neg hempty]
    obtain ⟨-, husable, hlined, -⟩ := BatchedVec.finish_spec (hbefore.shuffler.buckets byte)
    exact ⟨_, rfl, hbefore.shuffler.update byte hlined.sound hbefore.shuffler.stash, hbefore.done,
      List.forall_mem_cons.mpr ⟨husable, hbefore.work⟩⟩

/-- The list of buffers is split, staged, or moved to the result. -/
theorem Roomy.ingest (h : sorter.Roomy line) (key : T → U) {source : List (Vec T)}
    (hsource : ∀ vec ∈ source, vec.Usable line) :
    ∃ sorter', sorter.ingest key (sort_by key) source depth = some sorter' ∧
      sorter'.Roomy line := by
  simp only [Sorter.ingest]
  by_cases hmany : source.length > 1
  · rw [if_pos hmany]
    cases depth with
    | succ depth =>
      obtain ⟨shuffler, hpush, hroomy⟩ := (Lsb.shuffling_safe T line).push_batches
        (masked_byte key depth) hsource h.shuffler
      simp only [hpush, Option.bind_some]
      exact Roomy.collect_bytes _ _ ⟨hroomy, h.done, h.work⟩
    | zero =>
      obtain ⟨-, hstash⟩ := stage_spec hsource sorter.stage h.shuffler.stash
      obtain ⟨done, stash, hpush, hdone, hstash', -⟩ := push_done_spec
        (sort_by key (source.foldl stage_batch (sorter.stage, sorter.stash)).1).items h.done hstash
      exact ⟨_, Option.map_eq_some_iff.mpr ⟨(done, stash), hpush, rfl⟩,
        ⟨h.shuffler.buckets, hstash'⟩, hdone, h.work⟩
  · rw [if_neg hmany]
    cases hlast : source.getLast? with
    | none => exact ⟨sorter, rfl, h⟩
    | some batch =>
      have hbatch : (sort_by key batch).Usable line := hsource batch (List.mem_of_getLast? hlast)
      obtain ⟨hdone, hstash, -⟩ := BatchedVec.push_vec_spec h.done h.shuffler.stash hbatch
      exact ⟨_, rfl, ⟨h.shuffler.buckets, hstash⟩, hdone, h.work⟩

theorem Roomy.run (h : sorter.Roomy line) (key : T → U) :
    ∃ sorter', sorter.run key (sort_by key) = some sorter' ∧ sorter'.Roomy line := by
  -- a list on top of the stack is digested without the others
  have htop : ∀ {sorter : Sorter T} {depth : ℕ} {list : List (Vec T)} {work},
      sorter.Roomy line → sorter.work = (depth, list) :: work →
      ∃ sorter', Sorter.ingest key (sort_by key) { sorter with work := work } list depth
        = some sorter' ∧ sorter'.Roomy line := by
    intro sorter depth list work h hwork
    obtain ⟨hlist, hrest⟩ := List.forall_mem_cons.mp (hwork ▸ h.work)
    have hothers : Roomy line { sorter with work := work } := ⟨h.shuffler, h.done, hrest⟩
    exact hothers.ingest key hlist
  fun_induction Sorter.run key (sort_by key) sorter with
  | case1 sorter hwork => exact ⟨sorter, rfl, h⟩
  | case2 sorter depth list work hwork sorter₁ hingest ih =>
    obtain ⟨_, hresult, hroomy⟩ := htop h hwork
    rw [hingest] at hresult
    cases hresult
    exact ih hroomy
  | case3 sorter depth list work hwork hingest =>
    obtain ⟨_, hresult, -⟩ := htop h hwork
    rw [hingest] at hresult
    cases hresult

/-- The result is taken. -/
theorem Roomy.finished (h : sorter.Roomy line) :
    Roomy line { sorter with done := sorter.done.finish.2 } :=
  ⟨h.shuffler, (BatchedVec.finish_spec h.done).2.2.1.sound, h.work⟩

theorem Roomy.finish (h : sorter.Roomy line) (key : T → U) :
    ∃ out sorter', sorter.finish key = some (out, sorter') ∧ sorter'.Roomy line := by
  obtain ⟨middle, hcollect, hmiddle⟩ :=
    h.collect_bytes (Unsigned.bytes U - 1) (List.finRange 256).reverse
  obtain ⟨last, hrun, hlast⟩ := hmiddle.run key
  refine ⟨last.done.finish.1, _, ?_, hlast.finished⟩
  simp [Sorter.finish, finish_into_and, collect, hcollect, hrun, BatchedVec.finish_into_eq]

theorem Roomy.sort (h : sorter.Roomy line) (key : T → U) (batches : List (Vec T))
    (hbatches : batches.length > 1 → ∀ vec ∈ batches, vec.Usable line) :
    ∃ out sorter', sorter.sort key batches = some (out, sorter') ∧ sorter'.Roomy line := by
  rw [Sorter.sort, sort_and]
  by_cases hmany : batches.length > 1
  · rw [if_pos hmany]
    have hstart : Roomy line { sorter with work := (Unsigned.bytes U, batches) :: sorter.work } :=
      ⟨h.shuffler, h.done, List.forall_mem_cons.mpr ⟨hbatches hmany, h.work⟩⟩
    obtain ⟨last, hrun, hlast⟩ := hstart.run key
    refine ⟨last.done.finish.1, _, ?_, hlast.finished⟩
    simp [hrun, BatchedVec.finish_into_eq]
  · rw [if_neg hmany]
    exact ⟨_, sorter, rfl, h⟩

/-- No call fails that stashes buffers of whole lines only. -/
theorem Roomy.call (h : sorter.Roomy line) (call : Call T)
    (hstashed : ∀ vec ∈ (calling T).stashed sorter call, vec.Usable line) :
    ∃ after, (calling T).call sorter call = some after ∧ after.Roomy line := by
  cases call with
  | push element key =>
    obtain ⟨shuffler, hpush, hroomy⟩ := h.shuffler.push element (masked_byte key _)
    exact ⟨_, Option.map_eq_some_iff.mpr ⟨shuffler, hpush, rfl⟩, hroomy, h.done, h.work⟩
  | push_batch batch key =>
    obtain ⟨shuffler, hpush, hroomy⟩ := (Lsb.shuffling_safe T line).push_batch (masked_byte key _)
      (hstashed batch (List.mem_singleton_self batch)) h.shuffler
    exact ⟨_, Option.map_eq_some_iff.mpr ⟨shuffler, hpush, rfl⟩, hroomy, h.done, h.work⟩
  | sort batches key =>
    obtain ⟨out, after, hsort, hroomy⟩ := h.sort key batches fun hmany => by
      simpa only [calling, Call.stashed, if_pos hmany] using hstashed
    exact ⟨after, Option.map_eq_some_iff.mpr ⟨_, hsort, rfl⟩, hroomy⟩
  | finish key =>
    obtain ⟨out, after, hfinish, hroomy⟩ := h.finish key
    exact ⟨after, Option.map_eq_some_iff.mpr ⟨_, hfinish, rfl⟩, hroomy⟩
  | rebalance buffers intended =>
    exact ⟨_, rfl, ⟨h.shuffler.buckets, h.shuffler.stash.rebalance_taken hstashed⟩, h.done, h.work⟩

end Msb.Sorter

/-! ### All writes -/

section Writes

variable {T : Type}

/-- New sorters have room for lines of one element. -/
theorem page_sound (size : ℕ+) (pages : ℕ) (hpages : 0 < pages) :
    (Stash.new (pages * per_cache_line size) : Stash T).Sound 1 :=
  Stash.new_sound (Nat.one_dvd _) (Nat.mul_pos hpages (per_cache_line_pos size))

/-- No call of either sorter writes outside of a buffer, however the calls go on, as long as no
    vector of capacity zero is put into the stash; and bucket indices are below 256. -/
theorem unchecked_writes_inside (size : ℕ+) :
    (∀ calls, (Lsb.shuffling T).calling.Meets (fun vec => 0 < vec.capacity)
        (Lsb.Shuffler.new size) calls →
      ∃ after, calls.foldlM (Lsb.shuffling T).calling.call (Lsb.Shuffler.new size) = some after) ∧
    (∀ calls, (Msb.Sorter.calling T).Meets (fun vec => 0 < vec.capacity)
        (Msb.Sorter.new size) calls →
      ∃ after, calls.foldlM (Msb.Sorter.calling T).call (Msb.Sorter.new size) = some after) ∧
    ∀ {U : Type} [Unsigned U] (key : T → U) (element : T) (depth : ℕ),
      (radix key element >>> (8 * depth)) &&& 0xFF < 256 ∧
        (radix key element >>> (8 * depth)) % 256 < 256 := by
  refine ⟨fun calls hmeets => ?_, fun calls hmeets => ?_, fun key element depth => ⟨?_, ?_⟩⟩
  · have hnew : (Lsb.Shuffler.new size : Lsb.Shuffler T).Roomy 1 :=
      ⟨fun _ => BatchedVec.new_sound, page_sound size lines_per_page (by decide)⟩
    obtain ⟨after, hcalls, -⟩ := Calling.run_of_step (fun call hroomy hstashed =>
      (Lsb.shuffling_safe T 1).call hroomy call fun vec hmem => Vec.usable_one (hstashed vec hmem))
      hnew hmeets
    exact ⟨after, hcalls⟩
  · have hnew : (Msb.Sorter.new size : Msb.Sorter T).Roomy 1 :=
      ⟨⟨fun _ => BatchedVec.new_sound, page_sound size Msb.lines_per_page (by decide)⟩,
        BatchedVec.new_sound, fun _ hmem => absurd hmem List.not_mem_nil⟩
    obtain ⟨after, hcalls, -⟩ := Calling.run_of_step (fun call hroomy hstashed =>
      hroomy.call call fun vec hmem => Vec.usable_one (hstashed vec hmem)) hnew hmeets
    exact ⟨after, hcalls⟩
  · exact Nat.lt_of_le_of_lt Nat.and_le_right (by decide)
  · exact Nat.mod_lt _ (by decide)

/-- A vector that has been filled before, and a push that may use it as a buffer. -/
theorem unchecked_writes_inside_example :
    (∃ after, [Call.push_batch ⟨[5, 7], 2, by decide⟩ (id : UInt64 → UInt64),
        Call.push 5 (id : UInt64 → UInt64)].foldlM (Lsb.shuffling UInt64).calling.call
          (Lsb.Shuffler.new 8) = some after) ∧
      ∃ after, [Call.push_batch ⟨[5, 7], 2, by decide⟩ (id : UInt64 → UInt64),
        Call.push 5 (id : UInt64 → UInt64)].foldlM (Msb.Sorter.calling UInt64).call
          (Msb.Sorter.new 8) = some after := by
  have hone : ∀ vec ∈ [(⟨[5, 7], 2, by decide⟩ : Vec UInt64)], 0 < vec.capacity := by decide
  have hnone : ∀ vec ∈ ([] : List (Vec UInt64)), 0 < vec.capacity := by decide
  exact ⟨(unchecked_writes_inside 8).1 _ ⟨hone, fun _ _ => ⟨hnone, fun _ _ => trivial⟩⟩,
    (unchecked_writes_inside 8).2.1 _ ⟨hone, fun _ _ => ⟨hnone, fun _ _ => trivial⟩⟩⟩

/-- A batch without memory of its own, and an element after it: its buffer is used as a tail, and
    written at index 0. -/
theorem unchecked_write_outside :
    [Call.push_batch Vec.new (id : UInt64 → UInt64), Call.push 5 (id : UInt64 → UInt64)].foldlM
        (Lsb.shuffling UInt64).calling.call (Lsb.Shuffler.new 8) = none ∧
      [Call.push_batch Vec.new (id : UInt64 → UInt64), Call.push 5 (id : UInt64 → UInt64)].foldlM
        (Msb.Sorter.calling UInt64).call (Msb.Sorter.new 8) = none := ⟨rfl, rfl⟩

end Writes

end Timely.Sort
