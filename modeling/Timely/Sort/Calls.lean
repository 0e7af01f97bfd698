/-
  Timely/Sort/Calls.lean
  ======================
  **The sorters as their users see them** (`RadixSorter` and `RadixSorterBase` of
  `sort/src/lib.rs`).

  A sorter is used by calls in any order, with vectors of the user of any length
  and capacity.  A call fails where the code would write outside of a buffer or
  panic.  Which of the user's vectors a call puts into the stash, to be used as
  buffers later, is known from the call and the stash before it.
-/
import Timely.Sort.MsbSwc

set_option linter.unusedSectionVars false

namespace Timely.Sort

open Library

namespace Stash

variable {T : Type} {stash : Stash T} {line : ℕ} {buffers : List (Vec T)} {intended : ℕ}

/-- The buffers that `rebalance` takes in: the last ones, as many as are missing. -/
def taken (stash : Stash T) (buffers : List (Vec T)) (intended : ℕ) : List (Vec T) :=
  buffers.drop (buffers.length - (intended - stash.stashed.length))

theorem stash_give_away (stash : Stash T) (buffers : List (Vec T)) (intended : ℕ) :
    (stash.give_away buffers intended).1
      = { stash with stashed := stash.stashed.take intended } := by
  fun_induction Stash.give_away stash buffers intended with
  | case1 stash buffers hmore ih =>
    rw [ih, List.dropLast_eq_take, List.take_take, Nat.min_eq_left (by omega)]
  | case2 stash buffers hfew => rw [List.take_of_length_le (by omega)]

/-- Only the buffers that are taken in have to have room for whole lines. -/
theorem Sound.take_in_taken (h : stash.Sound line)
    (htaken : ∀ vec ∈ stash.taken buffers intended, vec.Usable line) :
    (stash.take_in buffers intended).1.Sound line := by
  fun_induction Stash.take_in stash buffers intended with
  | case1 stash buffers hroom ih =>
    have hne : buffers ≠ [] := List.ne_nil_of_length_pos hroom.2
    have hlast : buffers.getLast hne ∈ stash.taken buffers intended := by
      have hsome : buffers.drop (buffers.length - (intended - stash.stashed.length)) ≠ [] :=
        List.ne_nil_of_length_pos (by rw [List.length_drop]; omega)
      rw [← List.getLast_drop hsome]
      exact List.getLast_mem _
    have husable : (buffers.getLast hne).Usable line := htaken _ hlast
    refine ih (h.give rfl husable) fun vec hmem => htaken vec ?_
    -- one buffer less, and one less is missing
    have hsame : buffers.length - 1 - (intended - (stash.stashed.length + 1))
        = buffers.length - (intended - stash.stashed.length) := by omega
    rw [taken, Stash.give, List.length_append, List.length_singleton, List.length_dropLast, hsame,
      List.dropLast_eq_take, List.drop_take] at hmem
    exact List.mem_of_mem_take hmem
  | case2 stash buffers => exact h

theorem Sound.rebalance_taken (h : stash.Sound line)
    (htaken : ∀ vec ∈ stash.taken buffers intended, vec.Usable line) :
    (stash.rebalance buffers intended).1.Sound line := by
  rw [Stash.rebalance]
  by_cases hmore : stash.stashed.length > intended
  · -- buffers are given away, and none is missing after that
    refine Sound.take_in_taken ?_ fun vec hmem => ?_
    · rw [stash_give_away]
      exact ⟨fun vec hmem => h.empty vec (List.mem_of_mem_take hmem),
        fun vec hmem => h.usable vec (List.mem_of_mem_take hmem), h.default_usable⟩
    · rw [taken, stash_give_away, List.length_take, Nat.min_eq_left (Nat.le_of_lt hmore),
        Nat.sub_self, Nat.sub_zero, List.drop_length] at hmem
      exact absurd hmem List.not_mem_nil
  · have hsame : stash.give_away buffers intended = (stash, buffers) := by
      rw [Stash.give_away, dif_neg hmore]
    simp only [hsame]
    exact h.take_in_taken htaken

end Stash

/-! ### Calls -/

/-- A call of a sorter; each may come with its own kind of keys. -/
inductive Call (T : Type) : Type 1
  | push {U : Type} [Unsigned U] (element : T) (key : T → U)
  | push_batch {U : Type} [Unsigned U] (batch : Vec T) (key : T → U)
  | sort {U : Type} [Unsigned U] (batches : List (Vec T)) (key : T → U)
  | finish {U : Type} [Unsigned U] (key : T → U)
  | rebalance (buffers : List (Vec T)) (intended : ℕ)

/-- The vectors of the user that a call puts into the stash, for a sorter that leaves up to
    `few` batches given to `sort` in their own memory. -/
def Call.stashed {T : Type} (few : ℕ) (stash : Stash T) : Call T → List (Vec T)
  | @Call.push _ _ _ _ _ => []
  | @Call.push_batch _ _ _ batch _ => [batch]
  | @Call.sort _ _ _ batches _ => if batches.length > few then batches else []
  | @Call.finish _ _ _ _ => []
  | .rebalance buffers intended => stash.taken buffers intended

/-- A sorter that can be called. -/
structure Calling (T S : Type) where
  /-- Fails where the code writes outside of a buffer, or panics. -/
  call : S → Call T → Option S
  stashed : S → Call T → List (Vec T)

namespace Calling

variable {T S : Type} (calling : Calling T S)

/-- All vectors that calls put into the stash are accepted ones. -/
def Meets (accepted : Vec T → Prop) : S → List (Call T) → Prop
  | _, [] => True
  | sorter, call :: calls => (∀ vec ∈ calling.stashed sorter call, accepted vec) ∧
      ∀ after, calling.call sorter call = some after → Meets accepted after calls

/-- What each call keeps, and needs in order not to fail, holds along all calls. -/
theorem run_of_step {calling : Calling T S} {accepted : Vec T → Prop} {Good : S → Prop}
    (hstep : ∀ {sorter} call, Good sorter → (∀ vec ∈ calling.stashed sorter call, accepted vec) →
      ∃ after, calling.call sorter call = some after ∧ Good after)
    {calls : List (Call T)} {sorter : S} (h : Good sorter)
    (hmeets : calling.Meets accepted sorter calls) :
    ∃ after, calls.foldlM calling.call sorter = some after ∧ Good after := by
  induction calls generalizing sorter with
  | nil => exact ⟨sorter, rfl, h⟩
  | cons call calls ih =>
    obtain ⟨haccepted, hrest⟩ := hmeets
    obtain ⟨middle, hcall, hmiddle⟩ := hstep call h haccepted
    obtain ⟨after, hcalls, hafter⟩ := ih hmiddle (hrest middle hcall)
    refine ⟨after, ?_, hafter⟩
    rw [List.foldlM_cons, hcall]
    exact hcalls

end Calling

/-! ### The least significant byte sorters -/

namespace Shuffling

variable {T S : Type} (shuffling : Shuffling T S)

/-- `RadixSorter::sort`. -/
def sorter_sort {U : Type} [Unsigned U] (key : T → U) (shuffler : S) (batches : List (Vec T)) :
    Option (List (Vec T) × S) :=
  (batches.foldlM (fun shuffler batch => shuffling.push_batch shuffler batch (low_byte key))
    shuffler).bind (shuffling.sorter_finish key)

/-- The sorter of a shuffler; it stashes all batches that it sorts. -/
def calling : Calling T S where
  call shuffler
    | @Call.push _ _ _ element key => shuffling.sorter_push key shuffler element
    | @Call.push_batch _ _ _ batch key => shuffling.push_batch shuffler batch (low_byte key)
    | @Call.sort _ _ _ batches key => (shuffling.sorter_sort key shuffler batches).map Prod.snd
    | @Call.finish _ _ _ key => (shuffling.sorter_finish key shuffler).map Prod.snd
    | .rebalance buffers intended => some (shuffling.rebalance shuffler buffers intended).1
  stashed shuffler := Call.stashed 0 (shuffling.stash shuffler)

/-- A shuffler that does not fail, as long as it is given buffers of whole lines only. -/
structure Safe (shuffling : Shuffling T S) (line : ℕ) (Good : S → Prop) : Prop where
  push : ∀ {shuffler}, Good shuffler → ∀ element function,
    ∃ shuffler', shuffling.push shuffler element function = some shuffler' ∧ Good shuffler'
  finish_into : ∀ {shuffler}, Good shuffler →
    ∃ out shuffler', shuffling.finish_into shuffler [] = some (out, shuffler') ∧ Good shuffler' ∧
      ∀ vec ∈ out, vec.Usable line
  stash : ∀ {shuffler}, Good shuffler → (shuffling.stash shuffler).Sound line
  with_stash : ∀ {shuffler stash}, Good shuffler → stash.Sound line →
    Good (shuffling.with_stash shuffler stash)

/-- A lawful shuffler is safe, whatever it holds. -/
theorem Lawful.safe {shuffling : Shuffling T S} {line : ℕ} {Holds : S → (Fin 256 → List T) → Prop}
    (h : shuffling.Lawful line Holds) :
    shuffling.Safe line fun shuffler => ∃ contents, Holds shuffler contents := by
  refine ⟨?_, ?_, ?_, ?_⟩
  · rintro shuffler ⟨contents, hholds⟩ element function
    obtain ⟨shuffler', hpush, hholds'⟩ := h.push hholds element function
    exact ⟨shuffler', hpush, _, hholds'⟩
  · rintro shuffler ⟨contents, hholds⟩
    obtain ⟨out, shuffler', hfinish, hholds', -, husable⟩ := h.finish_into hholds
    exact ⟨out, shuffler', hfinish, ⟨_, hholds'⟩, husable⟩
  · rintro shuffler ⟨contents, hholds⟩
    exact h.stash hholds
  · rintro shuffler stash ⟨contents, hholds⟩ hstash
    exact ⟨contents, h.with_stash hholds hstash⟩

namespace Safe

variable {shuffling} {line : ℕ} {Good : S → Prop} {shuffler : S}

theorem push_all (h : shuffling.Safe line Good) (function : T → Fin 256) (input : List T)
    (hgood : Good shuffler) :
    ∃ shuffler', input.foldlM (fun shuffler element => shuffling.push shuffler element function)
      shuffler = some shuffler' ∧ Good shuffler' := by
  refine exists_foldlM hgood ?_
  intro before element _ hbefore
  exact h.push hbefore element function

theorem push_batch (h : shuffling.Safe line Good) (function : T → Fin 256) {batch : Vec T}
    (hbatch : batch.Usable line) (hgood : Good shuffler) :
    ∃ shuffler', shuffling.push_batch shuffler batch function = some shuffler' ∧
      Good shuffler' := by
  obtain ⟨middle, hpush, hmiddle⟩ := h.push_all function batch.items hgood
  have hclear : batch.clear.Usable line := hbatch
  exact ⟨_, by rw [Shuffling.push_batch, hpush]; rfl,
    h.with_stash hmiddle ((h.stash hmiddle).give rfl hclear)⟩

theorem push_batches (h : shuffling.Safe line Good) (function : T → Fin 256)
    {buffers : List (Vec T)} (hbuffers : ∀ vec ∈ buffers, vec.Usable line)
    (hgood : Good shuffler) :
    ∃ shuffler', buffers.foldlM (fun shuffler buffer =>
      shuffling.push_batch shuffler buffer function) shuffler = some shuffler' ∧
        Good shuffler' := by
  refine exists_foldlM hgood ?_
  intro before batch hbatch hbefore
  exact h.push_batch function (hbuffers batch hbatch) hbefore

theorem reshuffle (h : shuffling.Safe line Good) (function : T → Fin 256)
    {buffers : List (Vec T)} (hbuffers : ∀ vec ∈ buffers, vec.Usable line)
    (hgood : Good shuffler) :
    ∃ out shuffler', shuffling.reshuffle shuffler buffers function = some (out, shuffler') ∧
      Good shuffler' ∧ ∀ vec ∈ out, vec.Usable line := by
  obtain ⟨middle, hpush, hmiddle⟩ := h.push_batches function hbuffers hgood
  obtain ⟨out, shuffler', hfinish, hgood', husable⟩ := h.finish_into hmiddle
  refine ⟨out, shuffler', ?_, hgood', husable⟩
  rw [Shuffling.reshuffle, hpush]
  exact hfinish

variable {U : Type} [Unsigned U] (key : T → U)

/-- The passes after the first one send buffers of the sorter through it again. -/
theorem passes (h : shuffling.Safe line Good) (bytes : List ℕ) {buffers : List (Vec T)}
    (hbuffers : ∀ vec ∈ buffers, vec.Usable line) (hgood : Good shuffler) :
    ∃ out shuffler', bytes.foldlM
        (fun result byte => shuffling.reshuffle result.2 result.1 (byte_at key byte))
          (buffers, shuffler) = some (out, shuffler') ∧ Good shuffler' := by
  have hfold : ∃ last : List (Vec T) × S, bytes.foldlM
      (fun result byte => shuffling.reshuffle result.2 result.1 (byte_at key byte))
        (buffers, shuffler) = some last ∧ (∀ vec ∈ last.1, vec.Usable line) ∧ Good last.2 := by
    refine exists_foldlM (P := fun result : List (Vec T) × S =>
      (∀ vec ∈ result.1, vec.Usable line) ∧ Good result.2) ⟨hbuffers, hgood⟩ ?_
    rintro ⟨before, middle⟩ byte _ ⟨husable, hmiddle⟩
    obtain ⟨out, after, hpass, hafter, husable'⟩ := h.reshuffle (byte_at key byte) husable hmiddle
    exact ⟨(out, after), hpass, husable', hafter⟩
  obtain ⟨⟨out, shuffler'⟩, hpasses, -, hgood'⟩ := hfold
  exact ⟨out, shuffler', hpasses, hgood'⟩

theorem sorter_finish (h : shuffling.Safe line Good) (hgood : Good shuffler) :
    ∃ out shuffler', shuffling.sorter_finish key shuffler = some (out, shuffler') ∧
      Good shuffler' := by
  obtain ⟨out₁, middle, hfinish, hmiddle, husable⟩ := h.finish_into hgood
  obtain ⟨out, shuffler', hpasses, hgood'⟩ :=
    h.passes key (List.range' 1 (Unsigned.bytes U - 1)) husable hmiddle
  refine ⟨out, shuffler', ?_, hgood'⟩
  rw [Shuffling.sorter_finish, sorter_finish_into, hfinish]
  exact hpasses

/-- No call fails that stashes buffers of whole lines only. -/
theorem call (h : shuffling.Safe line Good) (hgood : Good shuffler) (call : Call T)
    (hstashed : ∀ vec ∈ shuffling.calling.stashed shuffler call, vec.Usable line) :
    ∃ after, shuffling.calling.call shuffler call = some after ∧ Good after := by
  cases call with
  | push element key => exact h.push hgood element (low_byte key)
  | push_batch batch key =>
    exact h.push_batch (low_byte key) (hstashed batch (List.mem_singleton_self batch)) hgood
  | sort batches key =>
    have hbatches : ∀ vec ∈ batches, vec.Usable line := by
      intro vec hmem
      refine hstashed vec ?_
      have hsome : batches.length > 0 := List.length_pos_of_mem hmem
      simpa only [calling, Call.stashed, if_pos hsome] using hmem
    obtain ⟨middle, hpush, hmiddle⟩ := h.push_batches (low_byte key) hbatches hgood
    obtain ⟨out, after, hfinish, hafter⟩ := h.sorter_finish key hmiddle
    refine ⟨after, ?_, hafter⟩
    simp only [calling, sorter_sort, hpush, Option.bind_some, hfinish, Option.map_some]
  | finish key =>
    obtain ⟨out, after, hfinish, hafter⟩ := h.sorter_finish key hgood
    refine ⟨after, ?_, hafter⟩
    simp only [calling, hfinish, Option.map_some]
  | rebalance buffers intended =>
    exact ⟨_, rfl, h.with_stash hgood ((h.stash hgood).rebalance_taken hstashed)⟩

end Safe

end Shuffling

/-! ### The most significant byte sorters -/

/-- The sorter leaves a single batch where it is. -/
def Msb.Sorter.calling (T : Type) : Calling T (Msb.Sorter T) where
  call sorter
    | @Call.push _ _ _ element key => sorter.push key element
    | @Call.push_batch _ U _ batch key =>
      ((Lsb.shuffling T).push_batch sorter.shuffler batch
        (masked_byte key (Unsigned.bytes U - 1))).map sorter.with_shuffler
    | @Call.sort _ _ _ batches key => (sorter.sort key batches).map Prod.snd
    | @Call.finish _ _ _ key => (sorter.finish key).map Prod.snd
    | .rebalance buffers intended => some (sorter.rebalance buffers intended).1
  stashed sorter := Call.stashed 1 sorter.stash

/-- The sorter leaves a single batch where it is. -/
def MsbSwc.Sorter.calling (T : Type) (size : ℕ+) : Calling T (MsbSwc.Sorter T) where
  call sorter
    | @Call.push _ _ _ element key => sorter.push size key element
    | @Call.push_batch _ U _ batch key =>
      ((LsbSwc.shuffling T size).push_batch sorter.shuffler batch
        (masked_byte key (Unsigned.bytes U - 1))).map sorter.with_shuffler
    | @Call.sort _ _ _ batches key => (sorter.sort size key batches).map Prod.snd
    | @Call.finish _ _ _ key => (sorter.finish size key).map Prod.snd
    | .rebalance buffers intended => some (sorter.rebalance buffers intended).1
  stashed sorter := Call.stashed 1 sorter.stash

end Timely.Sort
