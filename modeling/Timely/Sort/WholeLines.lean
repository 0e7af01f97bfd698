/-
  Timely/Sort/WholeLines.lean
  ===========================
  **Lines that are moved to buckets** (`push_all` of `sort/src/batched_vec.rs`,
  from `lsb_swc.rs` and `msb_swc.rs`).

  A line is moved as a whole, behind a tail that is looked at once.  Full lines
  fit as long as all buffers have room for whole lines, and the lines that are
  not full come last, before the bucket is taken.  Buffers of the user come into
  the stash as they are, and one with room for anything else makes `push_all`
  panic.
-/
import Timely.Sort.Writes

set_option linter.unusedSectionVars false

namespace Timely.Sort

open Library

/-- A line is moved exactly where there is room for it, after `reserve`. -/
theorem BatchedVec.push_all_eq_none_iff {T : Type} (b : BatchedVec T) (stash : Stash T)
    (slice : List T) :
    b.push_all stash slice = none ↔ (b.reserve stash).1.tail.capacity
      < (b.reserve stash).1.tail.items.length + slice.length := by
  rcases hreserve : b.reserve stash with ⟨b₁, stash₁⟩
  simp only [push_all, hreserve]
  by_cases hroom : b₁.tail.items.length + slice.length ≤ b₁.tail.capacity
  · rw [dif_pos hroom]
    simp only [reduceCtorEq, false_iff, Nat.not_lt]
    exact hroom
  · rw [dif_neg hroom]
    simp only [true_iff]
    exact Nat.not_le.mp hroom

/-! ### With write combining, most significant byte first -/

namespace MsbSwc.Sorter

variable {T U : Type} [Unsigned U] {size : ℕ+} {sorter : Sorter T} {depth : ℕ}
  {action : Vec T → Vec T}

/-- The buffers of a piece of work have room for whole lines. -/
def Roomed (size : ℕ+) : Work T → Prop
  | .done batch => batch.Usable (per_cache_line size)
  | .sort _ list => ∀ vec ∈ list, vec.Usable (per_cache_line size)

/-- All buffers have room for whole lines, and the buckets consist of these. -/
structure Lined (size : ℕ+) (sorter : Sorter T) : Prop where
  shuffler : ∃ contents, sorter.shuffler.Holds size contents
  done : sorter.done.Sound (per_cache_line size)
  work : ∀ item ∈ sorter.work, Roomed size item

/-- An action that leaves vectors in their memory. -/
def InPlace (action : Vec T → Vec T) : Prop := ∀ vec, (action vec).capacity = vec.capacity

theorem InPlace.usable (h : InPlace action) {vec : Vec T} {line : ℕ} (hvec : vec.Usable line) :
    (action vec).Usable line := by
  rw [Vec.Usable, h vec]
  exact hvec

theorem InPlace.bucket_work (h : InPlace action) {list : List (Vec T)}
    (hlist : ∀ vec ∈ list, vec.Usable (per_cache_line size)) :
    Roomed size (bucket_work action depth list) := by
  rcases list with _ | ⟨buffer, _ | ⟨other, rest⟩⟩
  · exact hlist
  · exact h.usable (hlist buffer (List.mem_singleton_self buffer))
  · exact hlist

/-- The line of a byte is moved before its bucket is taken. -/
theorem Lined.collect_byte (h : sorter.Lined size) (haction : InPlace action) (byte : Fin 256) :
    ∃ sorter', collect_byte size action depth sorter byte = some sorter' ∧ sorter'.Lined size := by
  obtain ⟨contents, hholds⟩ := h.shuffler
  obtain ⟨lines, hlines, hcontents⟩ := hholds.lines
  obtain ⟨buffer, bucket, stash, hdrain, hlines', hbucket, hstash, -, hpacked, -⟩ :=
    hlines.drain_into (hholds.buckets byte) hholds.stash byte
  simp only [Sorter.shuffler] at hdrain
  by_cases hempty : bucket.is_empty = true
  · have hnone := hpacked.is_empty_iff.mp hempty
    have hlined : bucket.Lined (per_cache_line size) := by
      refine ⟨hbucket, ?_, hpacked⟩
      rw [(List.append_eq_nil_iff.mp hnone).2]
      exact Nat.dvd_zero _
    refine ⟨{ sorter with
        buffer := buffer, buckets := Function.update sorter.buckets byte bucket, stash := stash },
      ?_, ⟨_, hholds.emptied hcontents hlines' hlined hnone hstash⟩, h.done, h.work⟩
    rw [Sorter.collect_byte, hdrain]
    simp [hempty]
  · obtain ⟨-, husable, hlined, hnone⟩ := BatchedVec.finish_spec hbucket
    refine ⟨{ sorter with
        buffer := buffer
        work := Sorter.bucket_work action depth bucket.finish.1 :: sorter.work
        buckets := Function.update sorter.buckets byte bucket.finish.2
        stash := stash }, ?_, ⟨_, hholds.emptied hcontents hlines' hlined hnone hstash⟩, h.done,
      List.forall_mem_cons.mpr ⟨haction.bucket_work husable, h.work⟩⟩
    rw [Sorter.collect_byte, hdrain]
    simp [hempty, BatchedVec.finish_into_eq]

theorem Lined.collect_bytes (depth : ℕ) (bytes : List (Fin 256)) (h : sorter.Lined size)
    (haction : InPlace action) :
    ∃ sorter', bytes.foldlM (Sorter.collect_byte size action depth) sorter = some sorter' ∧
      sorter'.Lined size := by
  refine exists_foldlM h ?_
  intro before byte _ hbefore
  exact hbefore.collect_byte haction byte

/-- A piece of work is moved to the result, split or staged. -/
theorem Lined.perform (h : sorter.Lined size) (haction : InPlace action) (key : T → U)
    {work : Work T} (hwork : Roomed size work) :
    ∃ sorter', sorter.perform size key action work = some sorter' ∧ sorter'.Lined size := by
  have hsafe := (LsbSwc.shuffling_lawful T size).safe
  have hstash := hsafe.stash h.shuffler
  cases work with
  | done batch =>
    obtain ⟨hdone, hstash', -⟩ := BatchedVec.push_vec_spec h.done hstash hwork
    exact ⟨_, rfl, hsafe.with_stash h.shuffler hstash', hdone, h.work⟩
  | sort depth list =>
    cases depth with
    | succ depth =>
      obtain ⟨shuffler, hpush, hholds⟩ :=
        hsafe.push_batches (masked_byte key depth) hwork h.shuffler
      simp only [Sorter.perform, ingest, hpush, Option.bind_some]
      exact Lined.collect_bytes _ _ ⟨hholds, h.done, h.work⟩ haction
    | zero =>
      obtain ⟨-, hstash₁⟩ := stage_spec hwork sorter.stage hstash
      obtain ⟨done, stash, hpush, hdone, hstash₂, -⟩ := push_done_spec
        (action (list.foldl stage_batch (sorter.stage, sorter.stash)).1).items h.done hstash₁
      exact ⟨_, Option.map_eq_some_iff.mpr ⟨(done, stash), hpush, rfl⟩,
        hsafe.with_stash h.shuffler hstash₂, hdone, h.work⟩

theorem Lined.grind_work (h : sorter.Lined size) (haction : InPlace action) (key : T → U) :
    ∃ sorter', sorter.grind_work size key action = some sorter' ∧ sorter'.Lined size := by
  -- the work on top of the stack is performed without the other
  have htop : ∀ {sorter : Sorter T} {item : Work T} {work}, sorter.Lined size →
      sorter.work = item :: work →
      ∃ sorter', Sorter.perform size key action { sorter with work := work } item = some sorter' ∧
        sorter'.Lined size := by
    intro sorter item work h hwork
    obtain ⟨hitem, hrest⟩ := List.forall_mem_cons.mp (hwork ▸ h.work)
    have hothers : Lined size { sorter with work := work } := ⟨h.shuffler, h.done, hrest⟩
    exact hothers.perform haction key hitem
  fun_induction Sorter.grind_work size key action sorter with
  | case1 sorter hwork => exact ⟨sorter, rfl, h⟩
  | case2 sorter item work hwork sorter₁ hperform ih =>
    obtain ⟨_, hresult, hlined⟩ := htop h hwork
    rw [hperform] at hresult
    cases hresult
    exact ih hlined
  | case3 sorter item work hwork hperform =>
    obtain ⟨_, hresult, -⟩ := htop h hwork
    rw [hperform] at hresult
    cases hresult

/-- The result is taken. -/
theorem Lined.finished (h : sorter.Lined size) :
    Lined size { sorter with done := sorter.done.finish.2 } :=
  ⟨h.shuffler, (BatchedVec.finish_spec h.done).2.2.1.sound, h.work⟩

theorem Lined.finish (h : sorter.Lined size) (key : T → U) :
    ∃ out sorter', sorter.finish size key = some (out, sorter') ∧ sorter'.Lined size := by
  have haction : InPlace (sort_many key) := fun vec => (sort_many_sorts key vec).2
  obtain ⟨middle, hcollect, hmiddle⟩ :=
    h.collect_bytes (Unsigned.bytes U - 1) (List.finRange 256).reverse haction
  obtain ⟨last, hgrind, hlast⟩ := hmiddle.grind_work haction key
  refine ⟨last.done.finish.1, _, ?_, hlast.finished⟩
  simp [Sorter.finish, finish_into_and, collect, hcollect, hgrind, BatchedVec.finish_into_eq]

theorem Lined.sort (h : sorter.Lined size) (key : T → U) (batches : List (Vec T))
    (hbatches : batches.length > 1 → ∀ vec ∈ batches, vec.Usable (per_cache_line size)) :
    ∃ out sorter', sorter.sort size key batches = some (out, sorter') ∧ sorter'.Lined size := by
  rw [Sorter.sort, sort_and]
  by_cases hmany : batches.length > 1
  · rw [if_pos hmany]
    have hstart : Lined size
        { sorter with work := .sort (Unsigned.bytes U) batches :: sorter.work } :=
      ⟨h.shuffler, h.done, List.forall_mem_cons.mpr ⟨hbatches hmany, h.work⟩⟩
    have haction : InPlace (sort_by key) := fun vec => (sort_by_sorts key vec).2
    obtain ⟨last, hgrind, hlast⟩ := hstart.grind_work haction key
    refine ⟨last.done.finish.1, _, ?_, hlast.finished⟩
    simp [hgrind, BatchedVec.finish_into_eq]
  · rw [if_neg hmany]
    exact ⟨_, sorter, rfl, h⟩

/-- No call fails that stashes buffers of whole lines only. -/
theorem Lined.call (h : sorter.Lined size) (call : Call T)
    (hstashed : ∀ vec ∈ (calling T size).stashed sorter call, vec.Usable (per_cache_line size)) :
    ∃ after, (calling T size).call sorter call = some after ∧ after.Lined size := by
  have hsafe := (LsbSwc.shuffling_lawful T size).safe
  cases call with
  | push element key =>
    obtain ⟨shuffler, hpush, hholds⟩ := hsafe.push h.shuffler element (masked_byte key _)
    exact ⟨_, Option.map_eq_some_iff.mpr ⟨shuffler, hpush, rfl⟩, hholds, h.done, h.work⟩
  | push_batch batch key =>
    obtain ⟨shuffler, hpush, hholds⟩ := hsafe.push_batch (masked_byte key _)
      (hstashed batch (List.mem_singleton_self batch)) h.shuffler
    exact ⟨_, Option.map_eq_some_iff.mpr ⟨shuffler, hpush, rfl⟩, hholds, h.done, h.work⟩
  | sort batches key =>
    obtain ⟨out, after, hsort, hlined⟩ := h.sort key batches fun hmany => by
      simpa only [calling, Call.stashed, if_pos hmany] using hstashed
    exact ⟨after, Option.map_eq_some_iff.mpr ⟨_, hsort, rfl⟩, hlined⟩
  | finish key =>
    obtain ⟨out, after, hfinish, hlined⟩ := h.finish key
    exact ⟨after, Option.map_eq_some_iff.mpr ⟨_, hfinish, rfl⟩, hlined⟩
  | rebalance buffers intended =>
    exact ⟨_, rfl, hsafe.with_stash h.shuffler
      ((hsafe.stash h.shuffler).rebalance_taken hstashed), h.done, h.work⟩

end MsbSwc.Sorter

/-! ### All lines -/

section Lines

variable {T : Type}

/-- No call of either sorter panics, however the calls go on, as long as all vectors that are put
    into the stash have room for whole lines. -/
theorem lines_have_room (size : ℕ+) :
    (∀ calls, (LsbSwc.shuffling T size).calling.Meets
        (fun vec => per_cache_line size ∣ vec.capacity ∧ 0 < vec.capacity)
        (LsbSwc.Shuffler.new size) calls →
      ∃ after, calls.foldlM (LsbSwc.shuffling T size).calling.call (LsbSwc.Shuffler.new size)
        = some after) ∧
    ∀ calls, (MsbSwc.Sorter.calling T size).Meets
        (fun vec => per_cache_line size ∣ vec.capacity ∧ 0 < vec.capacity)
        (MsbSwc.Sorter.new size) calls →
      ∃ after, calls.foldlM (MsbSwc.Sorter.calling T size).call (MsbSwc.Sorter.new size)
        = some after := by
  have hsafe := (LsbSwc.shuffling_lawful T size).safe
  refine ⟨fun calls hmeets => ?_, fun calls hmeets => ?_⟩
  · obtain ⟨after, hcalls, -⟩ := Calling.run_of_step
      (fun call hholds hstashed => hsafe.call hholds call hstashed)
      ⟨_, LsbSwc.Shuffler.new_holds⟩ hmeets
    exact ⟨after, hcalls⟩
  · have hnew : (MsbSwc.Sorter.new size : MsbSwc.Sorter T).Lined size :=
      ⟨⟨_, LsbSwc.Shuffler.new_holds⟩, BatchedVec.new_sound,
        fun _ hmem => absurd hmem List.not_mem_nil⟩
    obtain ⟨after, hcalls, -⟩ := Calling.run_of_step
      (fun call hlined hstashed => hlined.call call hstashed) hnew hmeets
    exact ⟨after, hcalls⟩

/-- A batch in a page of its own, and nine elements of one byte after it. -/
theorem lines_have_room_example :
    (∃ after, (Call.push_batch ⟨[5], 512, by decide⟩ (id : UInt64 → UInt64) ::
        List.replicate 9 (Call.push 5 (id : UInt64 → UInt64))).foldlM
          (LsbSwc.shuffling UInt64 8).calling.call (LsbSwc.Shuffler.new 8) = some after) ∧
      ∃ after, (Call.push_batch ⟨[5], 512, by decide⟩ (id : UInt64 → UInt64) ::
        List.replicate 9 (Call.push 5 (id : UInt64 → UInt64))).foldlM
          (MsbSwc.Sorter.calling UInt64 8).call (MsbSwc.Sorter.new 8) = some after := by
  have hpage : ∀ vec ∈ [(⟨[5], 512, by decide⟩ : Vec UInt64)],
      per_cache_line 8 ∣ vec.capacity ∧ 0 < vec.capacity := by decide
  -- pushes stash nothing
  have hpushes : ∀ {S : Type} (calling : Calling UInt64 S) (accepted : Vec UInt64 → Prop),
      (∀ sorter, calling.stashed sorter (Call.push 5 (id : UInt64 → UInt64)) = []) →
      ∀ count sorter, calling.Meets accepted sorter
        (List.replicate count (Call.push 5 (id : UInt64 → UInt64))) := by
    intro S calling accepted hnone count
    induction count with
    | zero => exact fun _ => trivial
    | succ count ih =>
      refine fun sorter => ⟨fun vec hmem => ?_, fun after _ => ih after⟩
      rw [hnone] at hmem
      exact absurd hmem List.not_mem_nil
  exact ⟨(lines_have_room 8).1 _ ⟨hpage, fun after _ => hpushes _ _ (fun _ => rfl) 9 after⟩,
    (lines_have_room 8).2 _ ⟨hpage, fun after _ => hpushes _ _ (fun _ => rfl) 9 after⟩⟩

/-- A batch in memory for one element, and eight elements of the same byte after it: the ninth
    element makes a full line move, and its buffer is the memory of the batch. -/
theorem line_without_room :
    (Call.push_batch ⟨[5], 1, by decide⟩ (id : UInt64 → UInt64) ::
        List.replicate 8 (Call.push 5 (id : UInt64 → UInt64))).foldlM
          (LsbSwc.shuffling UInt64 8).calling.call (LsbSwc.Shuffler.new 8) = none ∧
      (Call.push_batch ⟨[5], 1, by decide⟩ (id : UInt64 → UInt64) ::
        List.replicate 8 (Call.push 5 (id : UInt64 → UInt64))).foldlM
          (MsbSwc.Sorter.calling UInt64 8).call (MsbSwc.Sorter.new 8) = none := ⟨rfl, rfl⟩

end Lines

end Timely.Sort
