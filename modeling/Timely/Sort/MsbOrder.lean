/-
  Timely/Sort/MsbOrder.lean
  =========================
  **Sorting by the most significant byte first.**

  Elements that agree on all bytes above a position are sorted by sorting those
  of each byte at that position, and these agree on one byte more.
-/
import Timely.Sort.Lsb

set_option linter.unusedSectionVars false

namespace Timely.Sort

open Library

variable {T U : Type} [Unsigned U]

/-- `slice.sort_by(|x, y| bytes(x).cmp(&bytes(y)))`, which is stable. -/
def sort_by (key : T → U) (vec : Vec T) : Vec T :=
  ⟨stable_sort (radix key) vec.items, vec.capacity, length_stable_sort.trans_le vec.fits⟩

/-- The elements agree on the bytes from `depth` on. -/
def Agree (key : T → U) (depth : ℕ) (input : List T) : Prop :=
  ∀ a ∈ input, ∀ b ∈ input, radix key a / 256 ^ depth = radix key b / 256 ^ depth

variable {key : T → U} {depth : ℕ} {input : List T}

/-- All keys agree beyond their length. -/
theorem agree_bytes (key : T → U) (input : List T) : Agree key (Unsigned.bytes U) input := by
  intro a _ b _
  rw [Nat.div_eq_of_lt (radix_lt key a), Nat.div_eq_of_lt (radix_lt key b)]

theorem Agree.nil : Agree key depth [] := fun _ hmem => absurd hmem List.not_mem_nil

/-- Those with one byte in common agree on it as well. -/
theorem Agree.filter (h : Agree key (depth + 1) input) (byte : Fin 256) :
    Agree key depth (input.filter fun a => masked_byte key depth a = byte) := by
  intro a ha b hb
  obtain ⟨hma, hba⟩ := List.mem_filter.mp ha
  obtain ⟨hmb, hbb⟩ := List.mem_filter.mp hb
  rw [decide_eq_true_eq, masked_byte_eq] at hba hbb
  rw [radix_div_eq, radix_div_eq key depth b, h a hma b hmb, hba, hbb]

/-- Sorting what agrees on the bytes above, byte for byte. -/
theorem Agree.stable_sort_eq (h : Agree key (depth + 1) input) :
    stable_sort (radix key) input = (List.finRange 256).flatMap fun byte =>
      stable_sort (radix key) (input.filter fun a => masked_byte key depth a = byte) := by
  refine stable_sort_eq_flatMap fun a ha b hb hlt => ?_
  have habove := h a ha b hb
  have hbyte : (byte_at key depth a : ℕ) < byte_at key depth b := by
    rw [← masked_byte_eq]
    exact hlt
  -- a smaller byte below equal ones makes a smaller key
  have hdiv : radix key a / 256 ^ depth < radix key b / 256 ^ depth := by
    rw [radix_div_eq, radix_div_eq key depth b, habove]
    omega
  by_contra hnot
  exact absurd (Nat.div_le_div_right (Nat.not_lt.mp hnot)) (Nat.not_le.mpr hdiv)

/-- A loop down the bytes that puts what it finds in front of what there is. -/
theorem foldlM_bytes_reverse {State : Type} {step : State → Fin 256 → Option State}
    {sorted : List T → List T} {P : State → (Fin 256 → List T) → List T → Prop}
    (hstep : ∀ {state contents out} byte, P state contents out →
      ∃ state', step state byte = some state' ∧
        P state' (Function.update contents byte []) (sorted (contents byte) ++ out))
    {bytes : List (Fin 256)} (hnodup : bytes.Nodup) {state : State} {contents : Fin 256 → List T}
    {out : List T} (h : P state contents out) :
    ∃ state', bytes.reverse.foldlM step state = some state' ∧
      P state' (fun byte => if byte ∈ bytes then [] else contents byte)
        (bytes.flatMap (fun byte => sorted (contents byte)) ++ out) := by
  induction bytes with
  | nil => exact ⟨state, rfl, by simpa using h⟩
  | cons byte bytes ih =>
    obtain ⟨hbyte, hrest⟩ := List.nodup_cons.mp hnodup
    obtain ⟨state₁, hfold, h₁⟩ := ih hrest
    obtain ⟨state', hlast, h'⟩ := hstep byte h₁
    refine ⟨state', ?_, ?_⟩
    · rw [List.reverse_cons, List.foldlM_append, hfold]
      simp [hlast]
    · have hcontents : (fun other => if other ∈ byte :: bytes then [] else contents other)
          = Function.update (fun other => if other ∈ bytes then [] else contents other) byte [] := by
        funext other
        by_cases hother : other = byte
        · subst hother
          simp
        · simp [hother]
      rw [hcontents, List.flatMap_cons, List.append_assoc]
      simpa [hbyte] using h'

/-! ### The stage and the result -/

/-- Moves the elements of a batch to the stage, and stashes the batch. -/
def stage_batch (state : Vec T × Stash T) (batch : Vec T) : Vec T × Stash T :=
  (batch.items.foldl Vec.push state.1, state.2.give batch.clear)

/-- Pushes an element to the result. -/
def push_done (state : BatchedVec T × Stash T) (element : T) : Option (BatchedVec T × Stash T) :=
  state.1.push state.2 element

/-- Staged batches are stashed, and their elements stand behind those of the stage. -/
theorem stage_spec {line : ℕ} {source : List (Vec T)} (hsource : ∀ vec ∈ source, vec.Usable line)
    (stage : Vec T) {stash : Stash T} (hstash : stash.Sound line) :
    (source.foldl stage_batch (stage, stash)).1.items = stage.items ++ elements source ∧
      (source.foldl stage_batch (stage, stash)).2.Sound line := by
  induction source generalizing stage stash with
  | nil => exact ⟨(List.append_nil _).symm, hstash⟩
  | cons batch source ih =>
    have hclear : batch.clear.Usable line := hsource batch (by simp)
    obtain ⟨hitems, hsound⟩ := ih (fun vec hmem => hsource vec (by simp [hmem]))
      (batch.items.foldl Vec.push stage) (hstash.give rfl hclear)
    refine ⟨?_, hsound⟩
    rw [List.foldl_cons, stage_batch, hitems, Vec.items_foldl_push, elements_cons, List.append_assoc]

/-- Elements pushed to the result stand behind those that it has. -/
theorem push_done_spec {line : ℕ} (input : List T) {done : BatchedVec T} {stash : Stash T}
    (hdone : done.Sound line) (hstash : stash.Sound line) :
    ∃ done' stash', input.foldlM push_done (done, stash) = some (done', stash') ∧
      done'.Sound line ∧ stash'.Sound line ∧ done'.items = done.items ++ input := by
  have hfold : ∃ last : BatchedVec T × Stash T, input.foldlM push_done (done, stash) = some last ∧
      last.1.Sound line ∧ last.2.Sound line ∧ last.1.items = done.items ++ input := by
    refine exists_foldlM_history (P := fun pushed (last : BatchedVec T × Stash T) =>
      last.1.Sound line ∧ last.2.Sound line ∧ last.1.items = done.items ++ pushed)
      ⟨hdone, hstash, (List.append_nil _).symm⟩ ?_
    rintro ⟨before, middle⟩ element pushed _ _ ⟨hbefore, hmiddle, hitems⟩
    obtain ⟨done', stash', hpush, hdone', hstash', hitems', -⟩ :=
      BatchedVec.push_spec hbefore hmiddle element
    exact ⟨(done', stash'), hpush, hdone', hstash', by rw [hitems', hitems, List.append_assoc]⟩
  obtain ⟨⟨done', stash'⟩, hpushed, hall⟩ := hfold
  exact ⟨done', stash', hpushed, hall⟩

/-! ### Termination of the work stack -/

/-- The weight of what is to be sorted at a depth: more than that of 256 pieces one below. -/
def weight (depth : ℕ) : ℕ := 257 ^ depth

theorem weight_pos (depth : ℕ) : 0 < weight depth := Nat.pow_pos (by decide)

theorem weight_succ (depth : ℕ) : 256 * weight depth < weight (depth + 1) := by
  have hpos := weight_pos depth
  have hsucc : weight (depth + 1) = weight depth * 257 := pow_succ 257 depth
  omega

end Timely.Sort
