/-
  Timely/Fpga/Steps.lean
  ======================
  **What one exchange with the device does** (`fpga_wrapper.rs`, `raw_logic`).

  The layout of the frames, the counters that are read from a reply, and the updates that
  reach the progress of the ghosts, for the path with a message and the path without.
-/
import Timely.Fpga.Wrapper

set_option linter.unusedSectionVars false

namespace Timely.Fpga

open Library

variable {H : Type} {send_input_and_check : H → Frame → Option Frame × H}

/-! ### The layout of a frame -/

namespace Building

theorem foldl_push (words : List Word) (building : Building) :
    words.foldl push building =
      { building with
        input_vector := building.input_vector ++ words
        current_length := building.current_length + words.length } := by
  induction words generalizing building with
  | nil => simp
  | cons word words ih =>
    rw [List.foldl_cons, ih]
    simp [push, Nat.add_assoc, Nat.add_comm 1]

theorem foldl_push_header (words : List Word) (building : Building) :
    words.foldl push_header building =
      ⟨building.input_vector ++ words, building.current_length + words.length,
        building.progress_start_index + words.length⟩ := by
  induction words generalizing building with
  | nil => simp
  | cons word words ih =>
    rw [List.foldl_cons, ih]
    simp [push_header, push, Nat.add_assoc, Nat.add_comm 1]

theorem pad_eq (building : Building) (length : ℕ) :
    building.pad length =
      { building with
        input_vector :=
          building.input_vector ++ List.replicate (length - building.current_length) 0
        current_length := building.current_length + (length - building.current_length) } := by
  unfold pad
  rw [foldl_push, List.length_replicate]

theorem foldl_push_counters (ghosts : List (ℕ × ℕ)) (building : Building) :
    ghosts.foldl push_counters building =
      { building with
        input_vector := building.input_vector ++ List.replicate (4 * ghosts.length) 0
        current_length := building.current_length + 4 * ghosts.length } := by
  induction ghosts generalizing building with
  | nil => simp
  | cons ghost ghosts ih =>
    rw [List.foldl_cons, ih]
    simp [push_counters, push, Nat.mul_add, Nat.add_assoc, Nat.add_comm 4, List.replicate_succ]

end Building

/-- Times are totally ordered, so a frontier has at most one element. -/
theorem length_frontier_le {antichain : MutableAntichain Time} (h : antichain.Settled) :
    antichain.frontier.length ≤ 1 := by
  have hpairwise := h.frontier.incomparable
  match hfrontier : antichain.frontier with
  | [] => exact Nat.zero_le _
  | [_] => exact Nat.le_refl _
  | first :: second :: rest =>
    exfalso
    rw [hfrontier] at hpairwise
    have hpair := (List.pairwise_cons.mp hpairwise).1 second (by simp)
    rcases le_total first second with hle | hle
    · exact hpair.1 hle
    · exact hpair.2 hle

/-- The word that announces a frontier. -/
def frontier_word (antichain : MutableAntichain Time) : Word :=
  match antichain.frontier with
  | [] => 0
  | val :: _ => encode (BitVec.ofFin val)

theorem push_frontier_eq {antichain : MutableAntichain Time} (h : antichain.Settled)
    (building : Building) :
    building.push_frontier antichain = building.push_header (frontier_word antichain) := by
  have hlength := length_frontier_le h
  unfold Building.push_frontier frontier_word
  match hfrontier : antichain.frontier with
  | [] => rfl
  | [_] => rfl
  | first :: second :: rest =>
    rw [hfrontier] at hlength
    simp only [List.length_cons] at hlength
    omega

theorem foldl_push_frontier {frontier : List (MutableAntichain Time)}
    (h : ∀ antichain ∈ frontier, antichain.Settled) (building : Building) :
    frontier.foldl Building.push_frontier building =
      (frontier.map frontier_word).foldl Building.push_header building := by
  induction frontier generalizing building with
  | nil => rfl
  | cons antichain frontier ih =>
    rw [List.foldl_cons, push_frontier_eq (h antichain (by simp)),
      ih fun other hother => h other (by simp [hother])]
    rfl

/-- The words of the header: each ghost has one for its frontier and four for its counters. -/
def header_words (operator : FpgaOperator H) (time : Word) : List Word :=
  all_length :: time :: operator.frontier.map frontier_word ++
    List.replicate (4 * operator.ghost_indexes.length) 0

theorem length_header_words (operator : FpgaOperator H) (time : Word) :
    (header_words operator time).length = 2 + 5 * operator.ghost_indexes.length := by
  unfold header_words
  rw [List.length_append, List.length_cons, List.length_cons, List.length_map, operator.announced,
    List.length_replicate]
  omega

theorem header_eq (operator : FpgaOperator H) (time : Word) (input_vector : List Word) :
    header operator time input_vector =
      ⟨input_vector ++ header_words operator time, (header_words operator time).length,
        2 + operator.ghost_indexes.length⟩ := by
  rw [length_header_words]
  unfold header header_words
  simp only [foldl_push_frontier operator.settled, Building.foldl_push_header,
    Building.foldl_push_counters, Building.push_header, Building.push, List.length_map,
    operator.announced, Building.mk.injEq]
  refine ⟨?_, ?_, trivial⟩
  · simp
  · omega

/-- The words after the header of a message: its records, or a zero. -/
def payload (message : Message Time Word) : List Word :=
  if message.data.length = 0 then [0] else message.data.map encode

/-- The header of a message, filled up to where the records start. -/
def info_words (operator : FpgaOperator H) (message : Message Time Word) : List Word :=
  let words := header_words operator (BitVec.ofFin message.time)
  words ++ List.replicate (info_length - words.length) 0

/-- All words that are pushed for a message. -/
def message_words (operator : FpgaOperator H) (message : Message Time Word) : List Word :=
  let words := info_words operator message ++ payload message
  words ++ List.replicate (max_length - words.length) 0

theorem message_frame_eq (operator : FpgaOperator H) (message : Message Time Word)
    (input_vector : List Word) :
    (message_frame operator message input_vector).input_vector =
        input_vector ++ message_words operator message ∧
      (message_frame operator message input_vector).progress_start_index =
        2 + operator.ghost_indexes.length := by
  have hdata : ∀ info : Building,
      (if message.data.length = 0 then info.push 0
        else message.data.foldl (fun building val => building.push (encode val)) info) =
      (payload message).foldl Building.push info := by
    intro info
    unfold payload
    split
    · rfl
    · rw [List.foldl_map]
  unfold message_frame message_words info_words
  simp only [hdata, header_eq, Building.pad_eq, Building.foldl_push, List.length_append,
    List.length_replicate]
  exact ⟨by simp only [List.append_assoc], trivial⟩

theorem empty_frame_eq (operator : FpgaOperator H) (input_vector : List Word) :
    (empty_frame operator input_vector).input_vector =
        input_vector ++ (header_words operator 0 ++
          List.replicate (max_length - (header_words operator 0).length) 0) ∧
      (empty_frame operator input_vector).progress_start_index =
        2 + operator.ghost_indexes.length := by
  unfold empty_frame
  simp only [header_eq, Building.pad_eq]
  exact ⟨List.append_assoc _ _ _, trivial⟩

theorem le_length_message_words (operator : FpgaOperator H) (message : Message Time Word) :
    max_length ≤ (message_words operator message).length := by
  unfold message_words
  rw [List.length_append, List.length_replicate]
  omega

/-- The device reads from the start, whatever comes behind. -/
theorem toList_read_frame {input_vector : List Word} (h : max_length ≤ input_vector.length) :
    (read_frame input_vector).toList = input_vector.take max_length := by
  apply List.ext_getElem
  · rw [Vector.length_toList, List.length_take, Nat.min_eq_left h]
    rfl
  · intro index hindex _
    rw [Vector.length_toList] at hindex
    have hinside : index < input_vector.length := Nat.lt_of_lt_of_le hindex h
    simp [read_frame, List.getElem_take, hinside]

theorem time_word_read_frame {input_vector : List Word} {word : Word} (h : input_vector[1]? = some word) :
    time_word (read_frame input_vector) = word := by
  have hword : time_word (read_frame input_vector) = input_vector.getD 1 0 :=
    Vector.getElem_ofFn time_index_lt
  rw [hword, List.getD_eq_getElem?_getD, h, Option.getD_some]

theorem read_frame_append {first : List Word} (h : max_length ≤ first.length) (second : List Word) :
    read_frame (first ++ second) = read_frame first := by
  apply Vector.toList_inj.mp
  rw [toList_read_frame h, toList_read_frame (by rw [List.length_append]; omega),
    List.take_append_of_le_length h]

/-! ### The counters of a reply -/

/-- The counters of the ghost with the given index, where the frame has them. -/
def counters_at (output : Frame) (start index : ℕ) : Counters :=
  let word (offset : ℕ) : Word := (output[start + 4 * index + offset]?).getD 0
  ⟨(word 0).toInt, (word 1).toInt, ((word 2).sshiftRight 1).toFin, (word 3).toInt⟩

theorem read_counters_eq {output : Frame} {start index : ℕ} (h : start + 4 * index + 3 < 32) :
    read_counters output start index = some (counters_at output start index) := by
  have hword : ∀ offset ≤ 3, output[start + 4 * index + offset]? =
      some ((output[start + 4 * index + offset]?).getD 0) := by
    intro offset hoffset
    rw [Vector.getElem?_eq_getElem (by omega)]
    rfl
  have hfirst := hword 0 (by omega)
  rw [Nat.add_zero] at hfirst
  unfold read_counters counters_at
  rw [hword 1 (by omega), hword 2 (by omega), hword 3 (by omega), hfirst]
  rfl

theorem read_counters_eq_none {output : Frame} {start index : ℕ} (h : 32 ≤ start + 4 * index + 3) :
    read_counters output start index = none := by
  have hlast : output[start + 4 * index + 3]? = none := Vector.getElem?_eq_none h
  unfold read_counters
  rw [hlast]
  cases output[start + 4 * index]? with
  | none => rfl
  | some _ => cases output[start + 4 * index + 2]? <;> rfl

theorem foldlM_read_counters {output : Frame} {start : ℕ} {ghosts : List (ℕ × ℕ)}
    (hfit : ∀ ghost ∈ ghosts, start + 4 * ghost.1 + 3 < 32)
    (hdistinct : (ghosts.map Prod.snd).Nodup) (before : AList fun _ : ℕ => Counters) :
    ∃ after, ghosts.foldlM (fun counters ghost =>
        (read_counters output start ghost.1).map fun counter => counters.insert ghost.2 counter)
        before = some after ∧
      (∀ ghost ∈ ghosts, after.lookup ghost.2 = some (counters_at output start ghost.1)) ∧
      ∀ key ∉ ghosts.map Prod.snd, after.lookup key = before.lookup key := by
  induction ghosts generalizing before with
  | nil => exact ⟨before, rfl, fun _ h => absurd h List.not_mem_nil, fun _ _ => rfl⟩
  | cons ghost ghosts ih =>
    rw [List.map_cons, List.nodup_cons] at hdistinct
    obtain ⟨after, hafter, hread, hkept⟩ := ih (fun other hother => hfit other (by simp [hother]))
      hdistinct.2 (before.insert ghost.2 (counters_at output start ghost.1))
    refine ⟨after, ?_, ?_, ?_⟩
    · rw [List.foldlM_cons, read_counters_eq (hfit ghost (by simp))]
      exact hafter
    · intro other hother
      rcases List.mem_cons.mp hother with rfl | hother
      · rw [hkept _ hdistinct.1, AList.lookup_insert]
      · exact hread other hother
    · intro key hkey
      rw [List.map_cons, List.mem_cons, not_or] at hkey
      rw [hkept key hkey.2, AList.lookup_insert_ne hkey.1]

theorem read_all_counters_spec (output : Frame) {start : ℕ} {ghosts : List (ℕ × ℕ)}
    (hfit : ∀ ghost ∈ ghosts, start + 4 * ghost.1 + 3 < 32)
    (hdistinct : (ghosts.map Prod.snd).Nodup) :
    ∃ counters, read_all_counters output start ghosts = some counters ∧
      ∀ ghost ∈ ghosts, counters.lookup ghost.2 = some (counters_at output start ghost.1) := by
  obtain ⟨counters, hcounters, hread, _⟩ := foldlM_read_counters hfit hdistinct ∅
  exact ⟨counters, hcounters, hread⟩

/-- Counters beyond the end of the frame are out of bounds. -/
theorem read_all_counters_eq_none {output : Frame} {start : ℕ} {ghosts : List (ℕ × ℕ)}
    {ghost : ℕ × ℕ} (hmem : ghost ∈ ghosts) (hout : 32 ≤ start + 4 * ghost.1 + 3) :
    read_all_counters output start ghosts = none := by
  unfold read_all_counters
  generalize (∅ : AList fun _ : ℕ => Counters) = counters
  induction ghosts generalizing counters with
  | nil => exact absurd hmem List.not_mem_nil
  | cons other ghosts ih =>
    rw [List.foldlM_cons]
    rcases List.mem_cons.mp hmem with rfl | hmem
    · rw [read_counters_eq_none hout]
      rfl
    · cases read_counters output start other.1 with
      | none => rfl
      | some counter => exact ih hmem _

/-! ### The progress of the ghosts -/

/-- The counts that wait at the first port of a ghost. -/
def ghost_value (batches : AList fun _ : ℕ => List (ChangeBatch Time)) (ghost : ℕ) (time : Time) : ℤ :=
  ((batches.lookup ghost).bind List.head?).elim 0 fun batch => batch.value time

/-- The ghost has a first port. -/
def HasBatch (batches : AList fun _ : ℕ => List (ChangeBatch Time)) (ghost : ℕ) : Prop :=
  ∃ first rest, batches.lookup ghost = some (first :: rest)

theorem hasBatch_insert {batches : AList fun _ : ℕ => List (ChangeBatch Time)} {ghost other : ℕ}
    (first : ChangeBatch Time) (rest : List (ChangeBatch Time)) (h : HasBatch batches other) :
    HasBatch (batches.insert ghost (first :: rest)) other := by
  by_cases hsame : other = ghost
  · subst hsame
    exact ⟨first, rest, AList.lookup_insert _⟩
  · obtain ⟨before, more, hlookup⟩ := h
    exact ⟨before, more, (AList.lookup_insert_ne hsame).trans hlookup⟩

theorem ghost_value_insert (batches : AList fun _ : ℕ => List (ChangeBatch Time)) (ghost other : ℕ)
    (first : ChangeBatch Time) (rest : List (ChangeBatch Time)) (time : Time) :
    ghost_value (batches.insert ghost (first :: rest)) other time =
      if other = ghost then first.value time else ghost_value batches other time := by
  unfold ghost_value
  by_cases hsame : other = ghost
  · subst hsame
    rw [AList.lookup_insert, if_pos rfl]
    rfl
  · rw [AList.lookup_insert_ne hsame, if_neg hsame]

/-- A count at one time. -/
def at_time (time : Time) (count : ℤ) (other : Time) : ℤ := if time = other then count else 0

/-- Draining an entry into a ghost adds it once, and touches no other ghost. -/
theorem drain_into_ghost_spec {batches : AList fun _ : ℕ => List (ChangeBatch Time)} {ghost : ℕ}
    (h : HasBatch batches ghost) (key : Time) (count : ℤ) :
    ∃ after, drain_into_ghost batches ghost key count = some after ∧
      (∀ other, HasBatch batches other → HasBatch after other) ∧
      ∀ other time, ghost_value after other time =
        ghost_value batches other time + if other = ghost then at_time key count time else 0 := by
  obtain ⟨first, rest, hlookup⟩ := h
  refine ⟨batches.insert ghost (((ChangeBatch.new_from key count).drain_into first).2 :: rest),
    ?_, ?_, ?_⟩
  · unfold drain_into_ghost
    rw [hlookup]
  · exact fun other hother => hasBatch_insert _ _ hother
  · intro other time
    rw [ghost_value_insert]
    by_cases hsame : other = ghost
    · subst hsame
      have hbefore : ghost_value batches other time = first.value time := by
        unfold ghost_value
        rw [hlookup]
        rfl
      rw [if_pos rfl, if_pos rfl, ((ChangeBatch.new_from key count).value_drain_into first time).1,
        hbefore, add_comm, ChangeBatch.value_new_from]
      rfl
    · rw [if_neg hsame, if_neg hsame, add_zero]

/-- The progress has a first port for all that a ghost reports. -/
structure Shaped (progress : SharedProgress Time) (ghost : ℕ) : Prop where
  frontiers : HasBatch progress.wrapper_frontiers ghost
  consumeds : HasBatch progress.wrapper_consumeds ghost
  internals : HasBatch progress.wrapper_internals ghost
  produceds : HasBatch progress.wrapper_produceds ghost

/-- What is added to the progress of a ghost. -/
structure Adds (before after : SharedProgress Time) (ghost : ℕ)
    (consumed produced internal : Time → ℤ) : Prop where
  consumed : ∀ time, ghost_value after.wrapper_consumeds ghost time =
    ghost_value before.wrapper_consumeds ghost time + consumed time
  produced : ∀ time, ghost_value after.wrapper_produceds ghost time =
    ghost_value before.wrapper_produceds ghost time + produced time
  internal : ∀ time, ghost_value after.wrapper_internals ghost time =
    ghost_value before.wrapper_internals ghost time + internal time

theorem Adds.nothing (progress : SharedProgress Time) (ghost : ℕ) :
    Adds progress progress ghost 0 0 0 where
  consumed _ := (add_zero _).symm
  produced _ := (add_zero _).symm
  internal _ := (add_zero _).symm

theorem Adds.trans {before middle after : SharedProgress Time} {ghost : ℕ}
    {consumed produced internal consumed' produced' internal' : Time → ℤ}
    (hfirst : Adds before middle ghost consumed produced internal)
    (hsecond : Adds middle after ghost consumed' produced' internal') :
    Adds before after ghost (consumed + consumed') (produced + produced') (internal + internal') where
  consumed time := by rw [hsecond.consumed, hfirst.consumed, Pi.add_apply, add_assoc]
  produced time := by rw [hsecond.produced, hfirst.produced, Pi.add_apply, add_assoc]
  internal time := by rw [hsecond.internal, hfirst.internal, Pi.add_apply, add_assoc]

theorem credit_ghost_spec {progress : SharedProgress Time} {counters : AList fun _ : ℕ => Counters}
    {ghost : ℕ × ℕ} {counter : Counters} (hshaped : Shaped progress ghost.2)
    (hcounter : counters.lookup ghost.2 = some counter) (time : Time) :
    ∃ after, credit_ghost time counters progress ghost = some after ∧
      (∀ other, Shaped progress other → Shaped after other) ∧
      Adds progress after ghost.2 (at_time time counter.consumed) (at_time time counter.produced)
        (at_time counter.internal_time counter.internal_update) ∧
      ∀ other ≠ ghost.2, Adds progress after other 0 0 0 := by
  obtain ⟨consumeds, hconsumeds, hconsumedShape, hconsumed⟩ := drain_into_ghost_spec
    hshaped.consumeds time counter.consumed
  obtain ⟨produceds, hproduceds, hproducedShape, hproduced⟩ := drain_into_ghost_spec
    hshaped.produceds time counter.produced
  obtain ⟨internals, hinternals, hinternalShape, hinternal⟩ := drain_into_ghost_spec
    hshaped.internals counter.internal_time counter.internal_update
  refine ⟨{ progress with
      wrapper_consumeds := consumeds
      wrapper_produceds := produceds
      wrapper_internals := internals }, ?_, ?_, ?_, ?_⟩
  · unfold credit_ghost
    simp only [hcounter, hconsumeds, hproduceds, hinternals, Option.bind_eq_bind, Option.bind_some]
  · intro other hother
    exact ⟨hother.frontiers, hconsumedShape _ hother.consumeds, hinternalShape _ hother.internals,
      hproducedShape _ hother.produceds⟩
  · constructor
    · exact fun time => (hconsumed _ time).trans (by rw [if_pos rfl])
    · exact fun time => (hproduced _ time).trans (by rw [if_pos rfl])
    · exact fun time => (hinternal _ time).trans (by rw [if_pos rfl])
  · intro other hne
    constructor
    · exact fun time => (hconsumed _ time).trans (by rw [if_neg hne]; rfl)
    · exact fun time => (hproduced _ time).trans (by rw [if_neg hne]; rfl)
    · exact fun time => (hinternal _ time).trans (by rw [if_neg hne]; rfl)

/-- A reply without records credits every ghost once. -/
theorem foldlM_credit_ghost {counters : AList fun _ : ℕ => Counters} {ghosts : List (ℕ × ℕ)}
    (reading : ℕ → Counters) (hread : ∀ ghost ∈ ghosts, counters.lookup ghost.2 = some (reading ghost.1))
    (hdistinct : (ghosts.map Prod.snd).Nodup) (time : Time) {progress : SharedProgress Time}
    (hshaped : ∀ ghost ∈ ghosts, Shaped progress ghost.2) :
    ∃ after, ghosts.foldlM (credit_ghost time counters) progress = some after ∧
      (∀ other, Shaped progress other → Shaped after other) ∧
      (∀ ghost ∈ ghosts, Adds progress after ghost.2 (at_time time (reading ghost.1).consumed)
        (at_time time (reading ghost.1).produced)
        (at_time (reading ghost.1).internal_time (reading ghost.1).internal_update)) ∧
      ∀ other ∉ ghosts.map Prod.snd, Adds progress after other 0 0 0 := by
  induction ghosts generalizing progress with
  | nil =>
    exact ⟨progress, rfl, fun _ h => h, fun _ h => absurd h List.not_mem_nil,
      fun other _ => Adds.nothing progress other⟩
  | cons ghost ghosts ih =>
    rw [List.map_cons, List.nodup_cons] at hdistinct
    obtain ⟨middle, hmiddle, hmiddleShape, hadds, hothers⟩ :=
      credit_ghost_spec (hshaped ghost (by simp)) (hread ghost (by simp)) time
    obtain ⟨after, hafter, hafterShape, hlater, hrest⟩ :=
      ih (fun other hother => hread other (by simp [hother])) hdistinct.2
        (fun other hother => hmiddleShape _ (hshaped other (by simp [hother])))
    refine ⟨after, ?_, fun other hother => hafterShape _ (hmiddleShape _ hother), ?_, ?_⟩
    · rw [List.foldlM_cons, hmiddle]
      exact hafter
    · intro other hother
      rcases List.mem_cons.mp hother with rfl | hother
      · simpa only [add_zero] using hadds.trans (hrest _ hdistinct.1)
      · have hne : other.2 ≠ ghost.2 := by
          intro hsame
          exact hdistinct.1 (hsame ▸ List.mem_map_of_mem hother)
        simpa only [zero_add] using (hothers _ hne).trans (hlater other hother)
    · intro other hother
      rw [List.map_cons, List.mem_cons, not_or] at hother
      simpa only [zero_add] using (hothers _ hother.1).trans (hrest _ hother.2)

/-- A reply with records credits the last ghost only, and for nothing consumed. -/
theorem credit_records_spec (state : Scheduling H) {counters : AList fun _ : ℕ => Counters}
    {id_window : ℕ} {counter : Counters} (hshaped : Shaped state.progress id_window)
    (hcounter : counters.lookup id_window = some counter) :
    ∃ after, credit_records id_window counters state = some after ∧
      after = { state with operator := after.operator, progress := after.progress, vector2 := [] } ∧
      (∃ output, after.operator = { state.operator with output_wrapper := output }) ∧
      (∀ other, Shaped state.progress other → Shaped after.progress other) ∧
      Adds state.progress after.progress id_window 0 (at_time counter.internal_time counter.produced)
        (at_time counter.internal_time counter.internal_update) ∧
      ∀ other ≠ id_window, Adds state.progress after.progress other 0 0 0 := by
  obtain ⟨produceds, hproduceds, hproducedShape, hproduced⟩ := drain_into_ghost_spec
    hshaped.produceds counter.internal_time counter.produced
  obtain ⟨internals, hinternals, hinternalShape, hinternal⟩ := drain_into_ghost_spec
    hshaped.internals counter.internal_time counter.internal_update
  refine ⟨{ state with
      operator :=
        { state.operator with
          output_wrapper :=
            ((state.operator.output_wrapper.session counter.internal_time).give_vec
              state.vector2).buffer }
      progress :=
        { state.progress with wrapper_produceds := produceds, wrapper_internals := internals }
      vector2 := [] }, ?_, rfl, ⟨_, rfl⟩, ?_, ?_, ?_⟩
  · unfold credit_records
    simp only [hcounter, hproduceds, hinternals, Option.bind_eq_bind, Option.bind_some]
  · intro other hother
    exact ⟨hother.frontiers, hother.consumeds, hinternalShape _ hother.internals,
      hproducedShape _ hother.produceds⟩
  · constructor
    · exact fun time => (add_zero _).symm
    · exact fun time => (hproduced _ time).trans (by rw [if_pos rfl])
    · exact fun time => (hinternal _ time).trans (by rw [if_pos rfl])
  · intro other hne
    constructor
    · exact fun time => (add_zero _).symm
    · exact fun time => (hproduced _ time).trans (by rw [if_neg hne]; rfl)
    · exact fun time => (hinternal _ time).trans (by rw [if_neg hne]; rfl)

/-! ### One exchange -/

/-- The frame for a message, or for the lack of one. -/
def frame_for (state : Scheduling H) : Option (Message Time Word) → Building
  | some message => message_frame state.operator message state.input_vector
  | none => empty_frame state.operator state.input_vector

/-- The time that a reply without records is credited at. -/
def credit_time (output : Frame) : Option (Message Time Word) → Time
  | some message => message.time
  | none => (time_word output).toFin

/-- What the device does with the frame for a request. -/
def answer (send_input_and_check : H → Frame → Option Frame × H) (state : Scheduling H)
    (request : Option (Message Time Word)) : Option Frame × H :=
  send_input_and_check state.operator.hc (read_frame (frame_for state request).input_vector)

/-- Either path of `raw_logic`. -/
def on_request (send_input_and_check : H → Frame → Option Frame × H) (state : Scheduling H) :
    Option (Message Time Word) → Option (Scheduling H)
  | some message => on_message send_input_and_check state message
  | none => on_no_data send_input_and_check state

theorem on_request_eq (state : Scheduling H) (request : Option (Message Time Word)) :
    on_request send_input_and_check state request =
      (exchange send_input_and_check (frame_for state request) state).bind
        (conclude fun output => credit_time output request) := by
  cases request <;> rfl

theorem progress_start_index_frame_for (state : Scheduling H) (request : Option (Message Time Word)) :
    (frame_for state request).progress_start_index = 2 + state.operator.ghost_indexes.length := by
  cases request with
  | none => exact (empty_frame_eq _ _).2
  | some message => exact (message_frame_eq _ _ _).2

/-- The counters that a reply holds for a ghost. -/
def counters_of (operator : FpgaOperator H) (output : Frame) (ghost : ℕ × ℕ) : Counters :=
  counters_at output (2 + operator.ghost_indexes.length) ghost.1

/-- How a reply is credited: without records all counters of all ghosts, and with records what
    the last ghost produced and holds. -/
def Replied (operator : FpgaOperator H) (time : Time) (output : Frame)
    (before after : SharedProgress Time) : Prop :=
  ∀ ghost ∈ operator.ghost_indexes,
    let counter := counters_of operator output ghost
    if decode output = [] then
      Adds before after ghost.2 (at_time time counter.consumed) (at_time time counter.produced)
        (at_time counter.internal_time counter.internal_update)
    else if operator.ghost_indexes.getLast? = some ghost then
      Adds before after ghost.2 0 (at_time counter.internal_time counter.produced)
        (at_time counter.internal_time counter.internal_update)
    else Adds before after ghost.2 0 0 0

/-- What is promised of the state before each exchange. -/
structure Ready (state : Scheduling H) : Prop where
  shaped : ∀ ghost ∈ state.operator.ghost_indexes, Shaped state.progress ghost.2
  cleared : state.vector2 = []

/-- The outcome of an exchange. -/
structure Exchanged (send_input_and_check : H → Frame → Option Frame × H) (state : Scheduling H)
    (request : Option (Message Time Word)) (after : Scheduling H) : Prop where
  ready : Ready after
  ghost_indexes : after.operator.ghost_indexes = state.operator.ghost_indexes
  frontier : after.operator.frontier = state.operator.frontier
  input_vector : after.input_vector = (frame_for state request).input_vector
  hc : after.operator.hc = (answer send_input_and_check state request).2
  n_sent : after.operator.n_sent = state.operator.n_sent + 1
  n_received : after.operator.n_received =
    state.operator.n_received + if (answer send_input_and_check state request).1.isSome then 1 else 0
  unanswered : (answer send_input_and_check state request).1 = none → after.progress = state.progress
  replied : ∀ output, (answer send_input_and_check state request).1 = some output →
    Replied state.operator (credit_time output request) output state.progress after.progress

/-- The counters of every ghost fit in a frame for up to six ghosts. -/
theorem counters_fit {operator : FpgaOperator H} (h : operator.ghost_indexes.length ≤ 6)
    (ghost : ℕ × ℕ) (hghost : ghost ∈ operator.ghost_indexes) :
    2 + operator.ghost_indexes.length + 4 * ghost.1 + 3 < 32 := by
  have hindex : ghost.1 ∈ List.range operator.ghost_indexes.length := by
    rw [← operator.indexed]
    exact List.mem_map_of_mem hghost
  rw [List.mem_range] at hindex
  omega

/-- With one to six ghosts no exchange fails, and with more those without a reply do not. -/
theorem exists_exchanged {state : Scheduling H} (hready : Ready state)
    (hghosts : state.operator.ghost_indexes ≠ []) (request : Option (Message Time Word))
    (hfew : ∀ output, (answer send_input_and_check state request).1 = some output →
      state.operator.ghost_indexes.length ≤ 6) :
    ∃ after, on_request send_input_and_check state request = some after ∧
      Exchanged send_input_and_check state request after := by
  obtain ⟨id_window, hlast⟩ := List.getLast?_isSome.mpr hghosts |> Option.isSome_iff_exists.mp
  have hmem : id_window ∈ state.operator.ghost_indexes := List.mem_of_getLast? hlast
  rw [on_request_eq]
  unfold exchange
  match hanswer : answer send_input_and_check state request with
  | (none, hc) =>
    have hsend : send_input_and_check state.operator.hc
        (read_frame (frame_for state request).input_vector) = (none, hc) := hanswer
    refine ⟨{ state with
        operator := state.operator.count 0 hc
        input_vector := (frame_for state request).input_vector }, ?_, ?_⟩
    · simp only [hsend, Option.bind_some, conclude, FpgaOperator.count, hlast, Option.bind_eq_bind]
    · constructor
      case ready => exact ⟨hready.shaped, hready.cleared⟩
      case hc => rw [hanswer]; rfl
      case n_received => rw [hanswer]; rfl
      case unanswered => exact fun _ => rfl
      case replied =>
        intro output houtput
        rw [hanswer] at houtput
        cases houtput
      all_goals rfl
  | (some output, hc) =>
    have hsend : send_input_and_check state.operator.hc
        (read_frame (frame_for state request).input_vector) = (some output, hc) := hanswer
    obtain ⟨counters, hcounters, hread⟩ := read_all_counters_spec output
      (counters_fit (hfew output (by rw [hanswer]))) state.operator.distinct
    have hreplied : ∀ reply, (answer send_input_and_check state request).1 = some reply →
        reply = output := by
      intro reply hreply
      rw [hanswer] at hreply
      exact (Option.some.inj hreply).symm
    have hlast' : (state.operator.count 1 hc).ghost_indexes.getLast? = some id_window := hlast
    by_cases hrecords : decode output = []
    · -- No records: every ghost is credited.
      obtain ⟨progress, hprogress, hshaped, hadds, _⟩ := foldlM_credit_ghost
        (fun index => counters_at output (2 + state.operator.ghost_indexes.length) index)
        hread state.operator.distinct (credit_time output request) hready.shaped
      refine ⟨{ operator := state.operator.count 1 hc
                progress := progress
                input_vector := (frame_for state request).input_vector
                vector2 := [] }, ?_, ?_⟩
      · simp only [hsend, progress_start_index_frame_for, hcounters, Option.map_some,
          Option.bind_some, conclude, hlast', Option.bind_eq_bind, hready.cleared, List.nil_append,
          hrecords, List.length_nil, Nat.lt_irrefl, if_false]
        exact congrArg (Option.map _) hprogress
      · constructor
        case ready => exact ⟨fun ghost hghost => hshaped _ (hready.shaped ghost hghost), rfl⟩
        case hc => rw [hanswer]; rfl
        case n_received => rw [hanswer]; rfl
        case unanswered => intro hnone; rw [hanswer] at hnone; cases hnone
        case replied =>
          intro reply hreply
          obtain rfl := hreplied reply hreply
          intro ghost hghost
          rw [if_pos hrecords]
          exact hadds ghost hghost
        all_goals rfl
    · -- Records: the last ghost is credited for them.
      obtain ⟨after, hafter, hsame, ⟨wrapper, hwrapper⟩, hshaped, hadds, hothers⟩ := credit_records_spec
        { operator := state.operator.count 1 hc
          progress := state.progress
          input_vector := (frame_for state request).input_vector
          vector2 := decode output }
        (hready.shaped id_window hmem) (hread id_window hmem)
      refine ⟨after, ?_, ?_⟩
      · simp only [hsend, progress_start_index_frame_for, hcounters, Option.map_some,
          Option.bind_some, conclude, hlast', Option.bind_eq_bind, hready.cleared, List.nil_append,
          List.length_pos_iff.mpr hrecords, if_true]
        exact hafter
      · constructor
        case ready =>
          rw [hsame, hwrapper]
          exact ⟨fun ghost hghost => hshaped _ (hready.shaped ghost hghost), rfl⟩
        case hc => rw [hwrapper, hanswer]; rfl
        case n_received => rw [hwrapper, hanswer]; rfl
        case unanswered => intro hnone; rw [hanswer] at hnone; cases hnone
        case input_vector => rw [hsame]
        case replied =>
          intro reply hreply
          obtain rfl := hreplied reply hreply
          intro ghost hghost
          rw [if_neg hrecords]
          by_cases hid : state.operator.ghost_indexes.getLast? = some ghost
          · rw [if_pos hid]
            obtain rfl := Option.some.inj (hlast.symm.trans hid)
            exact hadds
          · rw [if_neg hid]
            apply hothers
            intro hid'
            have hsameGhost := List.inj_on_of_nodup_map state.operator.distinct hghost hmem hid'
            exact hid (hsameGhost ▸ hlast)
        all_goals
          rw [hwrapper]
          rfl

/-- Without ghosts every exchange fails: there is no last ghost. -/
theorem on_request_eq_none_of_no_ghosts {state : Scheduling H} (h : state.operator.ghost_indexes = [])
    (request : Option (Message Time Word)) :
    on_request send_input_and_check state request = none := by
  have hlast : ∀ received hc, (state.operator.count received hc).ghost_indexes.getLast? = none := by
    intro received hc
    exact congrArg List.getLast? h
  rw [on_request_eq]
  unfold exchange
  rcases send_input_and_check state.operator.hc
    (read_frame (frame_for state request).input_vector) with ⟨_ | output, hc⟩
  · simp only [Option.bind_some, conclude, hlast, Option.bind_eq_bind, Option.bind_none]
  · cases hcounters : read_all_counters output (frame_for state request).progress_start_index
      state.operator.ghost_indexes with
    | none => simp only [hcounters, Option.map_none, Option.bind_none]
    | some counters =>
      simp only [hcounters, Option.map_some, Option.bind_some, conclude, hlast,
        Option.bind_eq_bind, Option.bind_none]

/-- From seven ghosts on the counters of the last one are beyond the end of a reply. -/
theorem on_request_eq_none_of_many_ghosts {state : Scheduling H}
    (h : 6 < state.operator.ghost_indexes.length) {request : Option (Message Time Word)}
    {output : Frame} (hreply : (answer send_input_and_check state request).1 = some output) :
    on_request send_input_and_check state request = none := by
  have hindex : 6 ∈ state.operator.ghost_indexes.map Prod.fst := by
    rw [state.operator.indexed]
    exact List.mem_range.mpr h
  obtain ⟨ghost, hmem, hghost⟩ := List.mem_map.mp hindex
  have hnone : read_all_counters output (frame_for state request).progress_start_index
      state.operator.ghost_indexes = none := by
    refine read_all_counters_eq_none hmem ?_
    rw [progress_start_index_frame_for]
    omega
  unfold answer at hreply
  rw [on_request_eq]
  unfold exchange
  rcases hsend : send_input_and_check state.operator.hc
    (read_frame (frame_for state request).input_vector) with ⟨reply, hc⟩
  rw [hsend] at hreply
  obtain rfl : reply = some output := hreply
  simp only [hnone, Option.map_none, Option.bind_none]

/-- An exchange that does not fail has the outcome described. -/
theorem exchanged_of_on_request {state after : Scheduling H} (hready : Ready state)
    {request : Option (Message Time Word)}
    (h : on_request send_input_and_check state request = some after) :
    Exchanged send_input_and_check state request after := by
  have hghosts : state.operator.ghost_indexes ≠ [] := by
    intro hnone
    rw [on_request_eq_none_of_no_ghosts hnone] at h
    cases h
  have hfew : ∀ output, (answer send_input_and_check state request).1 = some output →
      state.operator.ghost_indexes.length ≤ 6 := by
    intro output houtput
    by_contra hmany
    rw [on_request_eq_none_of_many_ghosts (Nat.lt_of_not_le hmany) houtput] at h
    cases h
  obtain ⟨other, hother, hexchanged⟩ := exists_exchanged hready hghosts request hfew
  obtain rfl := Option.some.inj (h.symm.trans hother)
  exact hexchanged

/-! ### One scheduling -/

/-- The requests of a scheduling: the messages, or the lack of any. -/
def requests (messages : List (Message Time Word)) : List (Option (Message Time Word)) :=
  if messages.isEmpty then [none] else messages.map some

theorem foldlM_on_request (messages : List (Message Time Word)) (start : Scheduling H) :
    (messages.map some).foldlM (on_request send_input_and_check) start =
      messages.foldlM (on_message send_input_and_check) start := by
  induction messages generalizing start with
  | nil => rfl
  | cons message messages ih =>
    rw [List.map_cons, List.foldlM_cons, List.foldlM_cons]
    simp only [ih]
    rfl

theorem raw_logic_eq (operator : FpgaOperator H) (progress : SharedProgress Time)
    (messages : List (Message Time Word)) :
    raw_logic send_input_and_check operator progress messages =
      (prepare operator progress).bind fun start =>
        ((requests messages).foldlM (on_request send_input_and_check) start).map fun served =>
          (false,
            { served.operator with output_wrapper := served.operator.output_wrapper.cease },
            served.progress) := by
  unfold raw_logic requests
  cases prepare operator progress with
  | none => rfl
  | some start =>
    cases messages with
    | nil =>
      simp only [Option.bind_eq_bind, Option.bind_some, List.foldlM_nil, List.isEmpty_nil, if_true,
        List.foldlM_cons, on_request, Option.pure_def]
      cases on_no_data send_input_and_check start with
      | none => simp only [Option.bind_none, Option.map_none]
      | some served => simp only [Option.bind_some, Option.map_some]
    | cons message messages =>
      simp only [Option.bind_eq_bind, Option.bind_some, List.isEmpty_cons, Bool.false_eq_true,
        if_false, foldlM_on_request]
      cases List.foldlM (on_message send_input_and_check) start (message :: messages) with
      | none => rfl
      | some served => rfl

/-- What precedes the messages leaves the ghosts, the device and the counters of frames alone. -/
structure Prepares (before after : FpgaOperator H) : Prop where
  ghost_indexes : after.ghost_indexes = before.ghost_indexes
  hc : after.hc = before.hc
  n_sent : after.n_sent = before.n_sent
  n_received : after.n_received = before.n_received

theorem Prepares.refl (operator : FpgaOperator H) : Prepares operator operator := ⟨rfl, rfl, rfl, rfl⟩

theorem Prepares.trans {before middle after : FpgaOperator H} (hfirst : Prepares before middle)
    (hsecond : Prepares middle after) : Prepares before after where
  ghost_indexes := hsecond.ghost_indexes.trans hfirst.ghost_indexes
  hc := hsecond.hc.trans hfirst.hc
  n_sent := hsecond.n_sent.trans hfirst.n_sent
  n_received := hsecond.n_received.trans hfirst.n_received

theorem exists_accept_changes {state : FpgaOperator H × SharedProgress Time} {ghost : ℕ × ℕ}
    (h : Shaped state.2 ghost.2) :
    ∃ after, accept_changes state ghost = some after ∧
      (∀ other, Shaped state.2 other → Shaped after.2 other) ∧ Prepares state.1 after.1 := by
  obtain ⟨changes, rest, hlookup⟩ := h.frontiers
  unfold accept_changes drain_ghost
  rw [hlookup]
  exact ⟨_, rfl, fun other hother => ⟨hasBatch_insert _ _ hother.frontiers, hother.consumeds,
    hother.internals, hother.produceds⟩, rfl, rfl, rfl, rfl⟩

theorem exists_discard_initial {state : FpgaOperator H × SharedProgress Time} {ghost : ℕ × ℕ}
    (h : Shaped state.2 ghost.2) :
    ∃ after, discard_initial state ghost = some after ∧
      (∀ other, Shaped state.2 other → Shaped after.2 other) ∧ Prepares state.1 after.1 := by
  obtain ⟨internals, rest, hlookup⟩ := h.internals
  unfold discard_initial update_ghost
  rw [hlookup]
  exact ⟨_, rfl, fun other hother => ⟨hother.frontiers, hother.consumeds,
    hasBatch_insert _ _ hother.internals, hother.produceds⟩, rfl, rfl, rfl, rfl⟩

/-- A step that succeeds at every ghost and keeps its frame does so for all of them. -/
theorem exists_foldlM_ghosts
    {step : FpgaOperator H × SharedProgress Time → ℕ × ℕ → Option (FpgaOperator H × SharedProgress Time)}
    (hstep : ∀ {state ghost}, Shaped state.2 ghost.2 → ∃ after, step state ghost = some after ∧
      (∀ other, Shaped state.2 other → Shaped after.2 other) ∧ Prepares state.1 after.1)
    {ghosts : List (ℕ × ℕ)} (state : FpgaOperator H × SharedProgress Time)
    (hshaped : ∀ ghost ∈ ghosts, Shaped state.2 ghost.2) :
    ∃ after, ghosts.foldlM step state = some after ∧
      (∀ other, Shaped state.2 other → Shaped after.2 other) ∧ Prepares state.1 after.1 := by
  refine exists_foldlM (P := fun after : FpgaOperator H × SharedProgress Time =>
    (∀ other, Shaped state.2 other → Shaped after.2 other) ∧ Prepares state.1 after.1)
    ⟨fun _ h => h, Prepares.refl state.1⟩ ?_
  rintro before ghost hghost ⟨hshape, hprepares⟩
  obtain ⟨after, hafter, hlater, hmore⟩ := hstep (hshape _ (hshaped ghost hghost))
  exact ⟨after, hafter, fun other hother => hlater _ (hshape _ hother), hprepares.trans hmore⟩

/-- What is promised of the progress that the parent hands to a scheduling. -/
def ShapedFor (operator : FpgaOperator H) (progress : SharedProgress Time) : Prop :=
  ∀ ghost ∈ operator.ghost_indexes, Shaped progress ghost.2

theorem lookup_ghost_batches {count ghost : ℕ} {ghosts : List ℕ} (h : ghost ∈ ghosts) :
    (ghost_batches (T := Time) count ghosts).lookup ghost =
      some (List.replicate count ChangeBatch.new) := by
  have hfold : ∀ (ghosts : List ℕ) (kept : AList fun _ : ℕ => List (ChangeBatch Time)),
      ghost ∈ ghosts ∨ kept.lookup ghost = some (List.replicate count ChangeBatch.new) →
      (ghosts.foldl (fun kept ghost => kept.insert ghost (List.replicate count ChangeBatch.new))
        kept).lookup ghost = some (List.replicate count ChangeBatch.new) := by
    intro ghosts
    induction ghosts with
    | nil => exact fun kept hkept => hkept.resolve_left List.not_mem_nil
    | cons first ghosts ih =>
      intro kept hkept
      apply ih
      by_cases hsame : ghost = first
      · subst hsame
        exact Or.inr (AList.lookup_insert _)
      · rcases hkept with hmem | hkept
        · exact Or.inl ((List.mem_cons.mp hmem).resolve_left hsame)
        · exact Or.inr ((AList.lookup_insert_ne hsame).trans hkept)
  exact hfold ghosts ∅ (Or.inl h)

/-- The progress that a wrapper shares with its parent has what is promised. -/
theorem shapedFor_new {ghosts : List ℕ} (hdistinct : ghosts.Nodup) (hc : H) (inputs outputs : ℕ) :
    ShapedFor (FpgaOperator.new ghosts hdistinct hc)
      (SharedProgress.new_ghosts (inputs + 1) (outputs + 1) ghosts) := by
  intro ghost hghost
  have hmem : ghost.2 ∈ ghosts := by
    obtain ⟨indexed, hindexed, rfl⟩ := List.mem_map.mp hghost
    exact List.fst_mem_of_mem_zipIdx hindexed
  have hbatch : ∀ count, HasBatch (ghost_batches (count + 1) ghosts) ghost.2 :=
    fun count => ⟨_, _, lookup_ghost_batches hmem⟩
  exact ⟨hbatch inputs, hbatch inputs, hbatch outputs, hbatch outputs⟩

/-- The state that a scheduling starts from. -/
structure Prepared (operator : FpgaOperator H) (start : Scheduling H) : Prop where
  ready : Ready start
  prepares : Prepares operator start.operator
  input_vector : start.input_vector = []

theorem exists_prepared {operator : FpgaOperator H} {progress : SharedProgress Time}
    (h : ShapedFor operator progress) :
    ∃ start, prepare operator progress = some start ∧ Prepared operator start := by
  obtain ⟨accepted, haccepted, hacceptedShape, hfirst⟩ :=
    exists_foldlM_ghosts exists_accept_changes (operator, progress) h
  have hshaped : ∀ ghost ∈ operator.ghost_indexes, Shaped accepted.2 ghost.2 :=
    fun ghost hghost => hacceptedShape _ (h ghost hghost)
  have hstarted : ∃ started, (if accepted.1.started then some accepted
      else operator.ghost_indexes.foldlM discard_initial accepted) = some started ∧
      (∀ other, Shaped accepted.2 other → Shaped started.2 other) ∧
      Prepares accepted.1 started.1 := by
    split
    · exact ⟨accepted, rfl, fun _ h => h, Prepares.refl accepted.1⟩
    · exact exists_foldlM_ghosts exists_discard_initial accepted hshaped
  obtain ⟨started, hsome, hstartedShape, hsecond⟩ := hstarted
  have hprepares : Prepares operator started.1 := hfirst.trans hsecond
  refine ⟨⟨started.1, started.2, [], []⟩, ?_, ⟨?_, rfl⟩, hprepares, rfl⟩
  · unfold prepare
    rw [haccepted, Option.bind_eq_bind, Option.bind_some]
    by_cases hflag : accepted.1.started = true
    · rw [if_pos hflag] at hsome ⊢
      rw [hsome]
      rfl
    · rw [if_neg hflag] at hsome ⊢
      rw [hsome]
      rfl
  · intro ghost hghost
    rw [hprepares.ghost_indexes] at hghost
    exact hstartedShape _ (hshaped ghost hghost)

/-- One exchange of a scheduling: the state before it, what it is about, and the state after. -/
structure Exchange (H : Type) where
  state : Scheduling H
  request : Option (Message Time Word)
  after : Scheduling H

/-- Exchanges that follow each other. -/
inductive Serves (send_input_and_check : H → Frame → Option Frame × H) :
    Scheduling H → List (Exchange H) → Scheduling H → Prop
  | nil (state : Scheduling H) : Serves send_input_and_check state [] state
  | cons {state after last : Scheduling H} {request : Option (Message Time Word)}
      {exchanges : List (Exchange H)} :
      on_request send_input_and_check state request = some after →
      Serves send_input_and_check after exchanges last →
      Serves send_input_and_check state (⟨state, request, after⟩ :: exchanges) last

theorem serves_of_foldlM {requests : List (Option (Message Time Word))} {start last : Scheduling H}
    (h : requests.foldlM (on_request send_input_and_check) start = some last) :
    ∃ exchanges, Serves send_input_and_check start exchanges last ∧
      exchanges.map Exchange.request = requests := by
  induction requests generalizing start with
  | nil =>
    obtain rfl := Option.some.inj h
    exact ⟨[], Serves.nil start, rfl⟩
  | cons request requests ih =>
    obtain ⟨after, hafter, hrest⟩ := foldlM_cons_cases h
    obtain ⟨exchanges, hserves, hrequests⟩ := ih hrest
    exact ⟨⟨start, request, after⟩ :: exchanges, Serves.cons hafter hserves,
      congrArg (request :: ·) hrequests⟩

/-- What holds of the state before the first exchange and is kept by each holds before all. -/
theorem Serves.invariant {P : Scheduling H → Prop} {start last : Scheduling H}
    {exchanges : List (Exchange H)} (h : Serves send_input_and_check start exchanges last)
    (hstart : P start)
    (hstep : ∀ {state request after}, P state →
      on_request send_input_and_check state request = some after → P after) :
    (∀ exchange ∈ exchanges, P exchange.state) ∧ P last := by
  induction h with
  | nil => exact ⟨fun _ hmem => absurd hmem List.not_mem_nil, hstart⟩
  | cons hon _ ih =>
    obtain ⟨hrest, hlast⟩ := ih (hstep hstart hon)
    refine ⟨?_, hlast⟩
    intro exchange hexchange
    rcases List.mem_cons.mp hexchange with rfl | hexchange
    · exact hstart
    · exact hrest exchange hexchange

theorem Serves.on_request {start last : Scheduling H} {exchanges : List (Exchange H)}
    (h : Serves send_input_and_check start exchanges last) :
    ∀ exchange ∈ exchanges,
      on_request send_input_and_check exchange.state exchange.request = some exchange.after := by
  induction h with
  | nil => exact fun _ hmem => absurd hmem List.not_mem_nil
  | cons hon _ ih =>
    intro exchange hexchange
    rcases List.mem_cons.mp hexchange with rfl | hexchange
    · exact hon
    · exact ih exchange hexchange

/-- Every exchange of a scheduling has the outcome described. -/
theorem Serves.exchanged {start last : Scheduling H} {exchanges : List (Exchange H)}
    (h : Serves send_input_and_check start exchanges last) (hready : Ready start) :
    ∀ exchange ∈ exchanges, Ready exchange.state ∧
      Exchanged send_input_and_check exchange.state exchange.request exchange.after := by
  have hall := (h.invariant hready fun hstate hon => (exchanged_of_on_request hstate hon).ready).1
  intro exchange hexchange
  exact ⟨hall exchange hexchange,
    exchanged_of_on_request (hall exchange hexchange) (h.on_request exchange hexchange)⟩

/-- With one to six ghosts a scheduling returns, and does so after one exchange for each request. -/
theorem exists_scheduled (send_input_and_check : H → Frame → Option Frame × H)
    {operator : FpgaOperator H} {progress : SharedProgress Time}
    (hshaped : ShapedFor operator progress) (hghosts : operator.ghost_indexes ≠ [])
    (hfew : operator.ghost_indexes.length ≤ 6) (messages : List (Message Time Word)) :
    ∃ start exchanges last, prepare operator progress = some start ∧ Prepared operator start ∧
      Serves send_input_and_check start exchanges last ∧
      exchanges.map Exchange.request = requests messages ∧
      raw_logic send_input_and_check operator progress messages =
        some (false, { last.operator with output_wrapper := last.operator.output_wrapper.cease },
          last.progress) := by
  obtain ⟨start, hstart, hprepared⟩ := exists_prepared hshaped
  have hfold : ∃ last, (requests messages).foldlM (Fpga.on_request send_input_and_check) start = some last ∧
      Ready last ∧ last.operator.ghost_indexes = operator.ghost_indexes := by
    refine exists_foldlM (P := fun state : Scheduling H => Ready state ∧
      state.operator.ghost_indexes = operator.ghost_indexes)
      ⟨hprepared.ready, hprepared.prepares.ghost_indexes⟩ ?_
    rintro state request _ ⟨hready, hsame⟩
    have hmore : ∀ output, (answer send_input_and_check state request).1 = some output →
        state.operator.ghost_indexes.length ≤ 6 := fun _ _ => by rwa [hsame]
    obtain ⟨after, hafter, hexchanged⟩ := exists_exchanged hready (by rwa [hsame]) request hmore
    exact ⟨after, hafter, hexchanged.ready, hexchanged.ghost_indexes.trans hsame⟩
  obtain ⟨last, hlast, -, -⟩ := hfold
  obtain ⟨exchanges, hserves, hrequests⟩ := serves_of_foldlM hlast
  refine ⟨start, exchanges, last, hstart, hprepared, hserves, hrequests, ?_⟩
  rw [raw_logic_eq, hstart, Option.bind_some, hlast, Option.map_some]

end Timely.Fpga
