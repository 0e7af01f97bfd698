/-
  Timely/Sort/Shuffling.lean
  ==========================
  **Least significant byte sorting** (`sort/src/lsb.rs` and `lsb_swc.rs`).

  The two sorters have the same passes and differ in the shuffler that makes one.
  A shuffler collects elements in 256 sequences, and finishes with their
  concatenation.  So each pass distributes by one byte, and what was sorted by the
  bytes below it is sorted by these and this one.
-/
import Timely.Sort.BatchedVec
import Timely.Sort.RadixKey
import Timely.Library.Run
import Timely.Library.StableSort

set_option linter.unusedSectionVars false

namespace Timely.Sort

open Library

/-- What the sorters need of a shuffler. -/
structure Shuffling (T S : Type) where
  push : S → T → (T → Fin 256) → Option S
  finish_into : S → List (Vec T) → Option (List (Vec T) × S)
  stash : S → Stash T
  with_stash : S → Stash T → S

namespace Shuffling

variable {T S : Type} (shuffling : Shuffling T S)

/-- Pushes a batch of elements, and stashes the memory backing the batch. -/
def push_batch (shuffler : S) (elements : Vec T) (function : T → Fin 256) : Option S :=
  (elements.items.foldlM (fun shuffler element => shuffling.push shuffler element function)
    shuffler).map fun shuffler =>
      shuffling.with_stash shuffler ((shuffling.stash shuffler).give elements.clear)

/-- Sends all buffers through the shuffler once more. -/
def reshuffle (shuffler : S) (buffers : List (Vec T)) (function : T → Fin 256) :
    Option (List (Vec T) × S) :=
  (buffers.foldlM (fun shuffler buffer => shuffling.push_batch shuffler buffer function)
    shuffler).bind fun shuffler => shuffling.finish_into shuffler []

section Sorter

variable {U : Type} [Unsigned U] (key : T → U)

/-- `Sorter::push`. -/
def sorter_push (shuffler : S) (element : T) : Option S :=
  shuffling.push shuffler element (low_byte key)

/-- `Sorter::finish_into`. -/
def sorter_finish_into (shuffler : S) (target : List (Vec T)) : Option (List (Vec T) × S) :=
  (shuffling.finish_into shuffler target).bind fun result =>
    (List.range' 1 (Unsigned.bytes U - 1)).foldlM
      (fun result byte => shuffling.reshuffle result.2 result.1 (byte_at key byte)) result

/-- `RadixSorter::finish`. -/
def sorter_finish (shuffler : S) : Option (List (Vec T) × S) :=
  shuffling.sorter_finish_into key shuffler []

/-- A session: elements are pushed, and the result is taken. -/
def session (shuffler : S) (input : List T) : Option (List (Vec T) × S) :=
  (input.foldlM (shuffling.sorter_push key) shuffler).bind (shuffling.sorter_finish key)

end Sorter

/-- `Sorter::rebalance`. -/
def rebalance (shuffler : S) (buffers : List (Vec T)) (intended : ℕ) : S × List (Vec T) :=
  let (stash, buffers) := (shuffling.stash shuffler).rebalance buffers intended
  (shuffling.with_stash shuffler stash, buffers)

/-- What a shuffler does: `Holds` says that it holds the given elements for each byte, with
    buffers of whole lines. -/
structure Lawful (shuffling : Shuffling T S) (line : ℕ)
    (Holds : S → (Fin 256 → List T) → Prop) : Prop where
  push : ∀ {shuffler contents}, Holds shuffler contents → ∀ element function,
    ∃ shuffler', shuffling.push shuffler element function = some shuffler' ∧
      Holds shuffler' (Function.update contents (function element)
        (contents (function element) ++ [element]))
  finish_into : ∀ {shuffler contents}, Holds shuffler contents →
    ∃ out shuffler', shuffling.finish_into shuffler [] = some (out, shuffler') ∧
      Holds shuffler' (fun _ => []) ∧ elements out = (List.finRange 256).flatMap contents ∧
      ∀ vec ∈ out, vec.Usable line
  stash : ∀ {shuffler contents}, Holds shuffler contents → (shuffling.stash shuffler).Sound line
  with_stash : ∀ {shuffler contents stash}, Holds shuffler contents → stash.Sound line →
    Holds (shuffling.with_stash shuffler stash) contents

/-- A sorter that was made new, used, or given buffers that it returned. -/
inductive Reached (shuffling : Shuffling T S) (new : S) : S → Prop
  | new : Reached shuffling new new
  | used {shuffler after : S} {U : Type} [Unsigned U] {key : T → U} {input : List T}
      {out : List (Vec T)} (hbefore : Reached shuffling new shuffler)
      (hsession : shuffling.session key shuffler input = some (out, after)) :
      Reached shuffling new after
  | rebalanced {shuffler after : S} {U : Type} [Unsigned U] {key : T → U} {input : List T}
      {out buffers : List (Vec T)} (intended : ℕ) (hbefore : Reached shuffling new shuffler)
      (hsession : shuffling.session key shuffler input = some (out, after))
      (hown : ∀ vec ∈ buffers, vec ∈ out) :
      Reached shuffling new (shuffling.rebalance after buffers intended).1

namespace Lawful

variable {shuffling} {line : ℕ} {Holds : S → (Fin 256 → List T) → Prop}

/-- Pushed elements stand behind those that have the same byte. -/
theorem push_all (h : shuffling.Lawful line Holds) (function : T → Fin 256) (input : List T)
    {shuffler : S} {contents : Fin 256 → List T} (hholds : Holds shuffler contents) :
    ∃ shuffler', input.foldlM (fun shuffler element => shuffling.push shuffler element function)
        shuffler = some shuffler' ∧
      Holds shuffler' fun byte => contents byte ++ input.filter fun a => function a = byte := by
  refine exists_foldlM_history (P := fun done after => Holds after fun byte =>
    contents byte ++ done.filter fun a => function a = byte) (by simpa using hholds) ?_
  intro before element done _ _ hbefore
  obtain ⟨after, hpush, hafter⟩ := h.push hbefore element function
  refine ⟨after, hpush, ?_⟩
  convert hafter using 2 with byte
  rw [List.filter_append, ← List.append_assoc]
  by_cases hbyte : function element = byte
  · subst hbyte
    simp
  · rw [Function.update_of_ne (Ne.symm hbyte), List.filter_cons_of_neg (by simpa using hbyte),
      List.filter_nil, List.append_nil]

theorem push_batch (h : shuffling.Lawful line Holds) (function : T → Fin 256) {batch : Vec T}
    (hbatch : batch.Usable line) {shuffler : S} {contents : Fin 256 → List T}
    (hholds : Holds shuffler contents) :
    ∃ shuffler', shuffling.push_batch shuffler batch function = some shuffler' ∧
      Holds shuffler' fun byte => contents byte ++ batch.items.filter fun a => function a = byte := by
  obtain ⟨shuffler', hpush, hholds'⟩ := h.push_all function batch.items hholds
  have hclear : batch.clear.Usable line := hbatch
  refine ⟨_, by rw [Shuffling.push_batch, hpush]; rfl,
    h.with_stash hholds' ((h.stash hholds').give rfl hclear)⟩

theorem push_batches (h : shuffling.Lawful line Holds) (function : T → Fin 256)
    {buffers : List (Vec T)} (hbuffers : ∀ vec ∈ buffers, vec.Usable line) {shuffler : S}
    {contents : Fin 256 → List T} (hholds : Holds shuffler contents) :
    ∃ shuffler', buffers.foldlM (fun shuffler buffer =>
        shuffling.push_batch shuffler buffer function) shuffler = some shuffler' ∧
      Holds shuffler' fun byte =>
        contents byte ++ (elements buffers).filter fun a => function a = byte := by
  refine exists_foldlM_history (P := fun done after => Holds after fun byte =>
    contents byte ++ (elements done).filter fun a => function a = byte) (by simpa using hholds) ?_
  intro before batch done more hbuffersEq hbefore
  obtain ⟨after, hpush, hafter⟩ := h.push_batch function (hbuffers batch (by simp [hbuffersEq])) hbefore
  exact ⟨after, hpush, by simpa [elements] using hafter⟩

/-- A pass distributes by the byte that it looks at. -/
theorem reshuffle (h : shuffling.Lawful line Holds) (function : T → Fin 256)
    {buffers : List (Vec T)} (hbuffers : ∀ vec ∈ buffers, vec.Usable line) {shuffler : S}
    (hholds : Holds shuffler fun _ => []) :
    ∃ out shuffler', shuffling.reshuffle shuffler buffers function = some (out, shuffler') ∧
      Holds shuffler' (fun _ => []) ∧ elements out = distribute function (elements buffers) ∧
      ∀ vec ∈ out, vec.Usable line := by
  obtain ⟨shuffler₁, hpush, hholds₁⟩ := h.push_batches function hbuffers hholds
  obtain ⟨out, shuffler', hfinish, hholds', hout, husable⟩ := h.finish_into hholds₁
  refine ⟨out, shuffler', ?_, hholds', ?_, husable⟩
  · rw [Shuffling.reshuffle, hpush]
    exact hfinish
  · rw [hout]
    simp only [List.nil_append, distribute]

section Sorter

variable {U : Type} [Unsigned U] (key : T → U)

/-- What is sorted by the lowest bytes and distributed by the next one is sorted by it too. -/
theorem distribute_byte {input sorted : List T} {byte : ℕ}
    (h : StablySorted (fun a => radix key a % 256 ^ byte) input sorted) :
    StablySorted (fun a => radix key a % 256 ^ (byte + 1)) input
      (distribute (byte_at key byte) sorted) := by
  have hlow : ∀ a, radix key a % 256 ^ byte < 256 ^ byte := fun a =>
    Nat.mod_lt _ (Nat.pow_pos (by decide))
  refine h.distribute (fun a b hlt => ?_) (fun a b heq hle => ?_) (fun a b heq => ?_)
  · rw [radix_mod_succ, radix_mod_succ]
    have hnext : (byte_at key byte a : ℕ) + 1 ≤ byte_at key byte b := hlt
    have := Nat.mul_le_mul_left (256 ^ byte) hnext
    rw [Nat.mul_add, Nat.mul_one] at this
    have := hlow a
    omega
  · rw [radix_mod_succ, radix_mod_succ, heq]
    exact Nat.add_le_add_right hle _
  · rw [radix_mod_succ, radix_mod_succ] at heq
    have hquot : ∀ (low digit : ℕ), low < 256 ^ byte →
        (low + 256 ^ byte * digit) / 256 ^ byte = digit := by
      intro low digit hlt
      rw [Nat.add_mul_div_left _ _ (Nat.pow_pos (by decide)), Nat.div_eq_of_lt hlt, Nat.zero_add]
    have hdigit : byte_at key byte a = byte_at key byte b := by
      have hboth := hquot _ (byte_at key byte a) (hlow a)
      rw [heq, hquot _ _ (hlow b)] at hboth
      exact Fin.ext hboth.symm
    refine ⟨hdigit, ?_⟩
    rw [hdigit] at heq
    exact Nat.add_right_cancel heq

/-- The passes after the first one. -/
theorem passes (h : shuffling.Lawful line Holds) {input : List T} (count : ℕ) {byte : ℕ}
    {buffers : List (Vec T)} (hbuffers : ∀ vec ∈ buffers, vec.Usable line) {shuffler : S}
    (hholds : Holds shuffler fun _ => [])
    (hsorted : StablySorted (fun a => radix key a % 256 ^ byte) input (elements buffers)) :
    ∃ out shuffler', (List.range' byte count).foldlM
        (fun result byte => shuffling.reshuffle result.2 result.1 (byte_at key byte))
          (buffers, shuffler) = some (out, shuffler') ∧
      Holds shuffler' (fun _ => []) ∧
      StablySorted (fun a => radix key a % 256 ^ (byte + count)) input (elements out) ∧
      ∀ vec ∈ out, vec.Usable line := by
  induction count generalizing byte buffers shuffler with
  | zero => exact ⟨buffers, shuffler, rfl, hholds, hsorted, hbuffers⟩
  | succ count ih =>
    obtain ⟨out₁, shuffler₁, hpass, hholds₁, hout₁, husable₁⟩ :=
      h.reshuffle (byte_at key byte) hbuffers hholds
    have hsorted₁ := distribute_byte key hsorted
    rw [← hout₁] at hsorted₁
    obtain ⟨out, shuffler', hrest, hholds', hsorted', husable⟩ := ih husable₁ hholds₁ hsorted₁
    refine ⟨out, shuffler', ?_, hholds', ?_, husable⟩
    · rw [List.range'_succ, List.foldlM_cons]
      simp only [hpass]
      exact hrest
    · rwa [Nat.add_right_comm, Nat.add_assoc] at hsorted'

/-- A session sorts its input stably, and leaves the sorter as it was found. -/
theorem session (h : shuffling.Lawful line Holds) (input : List T) {shuffler : S}
    (hholds : Holds shuffler fun _ => []) :
    ∃ out shuffler', shuffling.session key shuffler input = some (out, shuffler') ∧
      Holds shuffler' (fun _ => []) ∧ elements out = stable_sort (radix key) input ∧
      ∀ vec ∈ out, vec.Usable line := by
  obtain ⟨shuffler₁, hpush, hholds₁⟩ := h.push_all (low_byte key) input hholds
  obtain ⟨out₁, shuffler₂, hfirst, hholds₂, hout₁, husable₁⟩ := h.finish_into hholds₁
  -- the first pass sorts by the lowest byte
  have hnone : StablySorted (fun a => radix key a % 256 ^ 0) input input := by
    refine ⟨List.pairwise_of_forall fun a b => ?_, fun _ => rfl⟩
    simp only [Nat.pow_zero, Nat.mod_one, le_refl]
  have hsorted₁ := distribute_byte key hnone
  have hfirst_out : elements out₁ = distribute (byte_at key 0) input := by
    rw [hout₁, ← low_byte_eq]
    simp only [List.nil_append, distribute]
  rw [← hfirst_out] at hsorted₁
  obtain ⟨out, shuffler', hrest, hholds', hsorted, husable⟩ :=
    h.passes key (Unsigned.bytes U - 1) husable₁ hholds₂ hsorted₁
  refine ⟨out, shuffler', ?_, hholds', StablySorted.eq_stable_sort ?_, husable⟩
  · have hpushed : input.foldlM (shuffling.sorter_push key) shuffler = some shuffler₁ := hpush
    rw [Shuffling.session, hpushed, Option.bind_some, sorter_finish, sorter_finish_into, hfirst]
    exact hrest
  · -- all bytes are below the key's length
    have hbytes : 0 + 1 + (Unsigned.bytes U - 1) = Unsigned.bytes U := by
      have := Unsigned.bytes_pos (U := U)
      omega
    have hkey : (fun a => radix key a % 256 ^ (0 + 1 + (Unsigned.bytes U - 1))) = radix key := by
      funext a
      rw [hbytes, Nat.mod_eq_of_lt (radix_lt key a)]
    rwa [hkey] at hsorted

end Sorter

theorem rebalance (h : shuffling.Lawful line Holds) {shuffler : S} {contents : Fin 256 → List T}
    (hholds : Holds shuffler contents) {buffers : List (Vec T)} {intended : ℕ}
    (hbuffers : ∀ vec ∈ buffers, vec.Usable line) :
    Holds (shuffling.rebalance shuffler buffers intended).1 contents :=
  h.with_stash hholds ((h.stash hholds).rebalance hbuffers)

/-- Between sessions a sorter holds nothing. -/
theorem reached (h : shuffling.Lawful line Holds) {new shuffler : S}
    (hnew : Holds new fun _ => []) (hreached : Reached shuffling new shuffler) :
    Holds shuffler fun _ => [] := by
  induction hreached with
  | new => exact hnew
  | @used shuffler after U _ key input out _ hsession ih =>
    obtain ⟨_, _, hresult, hholds, -⟩ := h.session key input ih
    rw [hsession] at hresult
    cases hresult
    exact hholds
  | @rebalanced shuffler after U _ key input out buffers intended _ hsession hown ih =>
    obtain ⟨_, _, hresult, hholds, -, husable⟩ := h.session key input ih
    rw [hsession] at hresult
    cases hresult
    exact h.rebalance hholds fun vec hmem => husable vec (hown vec hmem)

end Lawful

end Shuffling

end Timely.Sort
