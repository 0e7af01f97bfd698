/-
  Timely/ChangeBatch.lean
  =======================
  **A collection of updates** (`timely/src/progress/change_batch.rs`).

  A `ChangeBatch` appends updates to a list and compacts lazily: `clean` is the
  length of a prefix known to be compact.  The invariant of that prefix (it fits
  the list, and its keys strictly ascend) is part of the type here, so every
  value a caller can build already has it.

  What a batch means is its `value`, the sum of the deltas of each key; each
  operation below comes with its effect on `value` and on the shape of the list.

  Deltas are integers here.  The source has `i64`, whose addition can overflow;
  `consolidateWith` is the pass that adds them with an addition of any kind, and
  the `consolidate` of the batches below is the one with integer addition.
-/
import Timely.Library.Overflow
import Timely.Library.StableSort
import Timely.Library.Tally
import Timely.Order
import Mathlib.Data.List.Sort

set_option linter.unusedSectionVars false

namespace Timely

open Library

variable {K : Type} [Ord K] [DecidableEq K]

/-! ### Sorting and consolidating -/

/-- One update's key sorts strictly before another's. -/
def keyLt (first second : K × ℤ) : Prop := compare first.1 second.1 = .lt

/-- The pass over adjacent entries: an entry whose key comes again gives its delta
    to the next entry and keeps zero.  Deltas are added in the given way. -/
def sweepFromWith (add : ℤ → ℤ → Option ℤ) (entry : K × ℤ) : List (K × ℤ) → Option (List (K × ℤ))
  | [] => some [entry]
  | next :: rest =>
    if entry.1 = next.1 then
      (add next.2 entry.2).bind fun sum =>
        (sweepFromWith add (next.1, sum) rest).map fun swept => (entry.1, 0) :: swept
    else (sweepFromWith add next rest).map fun swept => entry :: swept

def sweepWith (add : ℤ → ℤ → Option ℤ) : List (K × ℤ) → Option (List (K × ℤ))
  | [] => some []
  | entry :: rest => sweepFromWith add entry rest

/-- Sort by key, sum the deltas of equal keys, and retain the non-zero sums. -/
def consolidateWith (add : ℤ → ℤ → Option ℤ) (updates : List (K × ℤ)) : Option (List (K × ℤ)) :=
  (sweepWith add (updates.insertionSort updateBefore)).map fun swept =>
    swept.filter fun update => update.2 ≠ 0

/-- The pass with integer addition. -/
def sweepFrom (entry : K × ℤ) : List (K × ℤ) → List (K × ℤ)
  | [] => [entry]
  | next :: rest =>
    if entry.1 = next.1 then (entry.1, 0) :: sweepFrom (next.1, next.2 + entry.2) rest
    else entry :: sweepFrom next rest

def sweep : List (K × ℤ) → List (K × ℤ)
  | [] => []
  | entry :: rest => sweepFrom entry rest

/-- Sort by key, sum the deltas of equal keys, and retain the non-zero sums, with integer
    addition. -/
def consolidate (updates : List (K × ℤ)) : List (K × ℤ) :=
  (sweep (updates.insertionSort updateBefore)).filter fun update => update.2 ≠ 0

theorem sweepFromWith_exact (entry : K × ℤ) (rest : List (K × ℤ)) :
    sweepFromWith exact_add entry rest = some (sweepFrom entry rest) := by
  induction rest generalizing entry with
  | nil => rfl
  | cons next rest ih =>
    unfold sweepFromWith sweepFrom
    by_cases h : entry.1 = next.1
    · rw [if_pos h, if_pos h, exact_add, Option.bind_some, ih, Option.map_some]
    · rw [if_neg h, if_neg h, ih, Option.map_some]

theorem consolidateWith_exact (updates : List (K × ℤ)) :
    consolidateWith exact_add updates = some (consolidate updates) := by
  unfold consolidateWith consolidate
  cases updates.insertionSort updateBefore with
  | nil => rfl
  | cons entry rest =>
    rw [sweepWith, sweepFromWith_exact]
    rfl

theorem tally_sweepFrom (entry : K × ℤ) (rest : List (K × ℤ)) (key : K) :
    tally (sweepFrom entry rest) key = tally (entry :: rest) key := by
  induction rest generalizing entry with
  | nil => rfl
  | cons next rest ih =>
    unfold sweepFrom
    by_cases h : entry.1 = next.1
    · rw [if_pos h, tally_cons, ih, tally_cons, tally_cons, tally_cons, h]
      split <;> omega
    · rw [if_neg h, tally_cons, ih, tally_cons entry]

theorem tally_sweep (updates : List (K × ℤ)) (key : K) :
    tally (sweep updates) key = tally updates key := by
  cases updates with
  | nil => rfl
  | cons entry rest => exact tally_sweepFrom entry rest key

section AnyAddition

variable {add : ℤ → ℤ → Option ℤ} {entry next update : K × ℤ} {rest swept updates result : List (K × ℤ)}

/-- What the pass does at one entry, when no addition fails. -/
theorem sweepFromWith_cons_cases (h : sweepFromWith add entry (next :: rest) = some swept) :
    (entry.1 = next.1 ∧ ∃ sum others, add next.2 entry.2 = some sum ∧
      sweepFromWith add (next.1, sum) rest = some others ∧ swept = (entry.1, 0) :: others) ∨
    (entry.1 ≠ next.1 ∧ ∃ others, sweepFromWith add next rest = some others ∧
      swept = entry :: others) := by
  unfold sweepFromWith at h
  by_cases hkey : entry.1 = next.1
  · rw [if_pos hkey] at h
    obtain ⟨sum, hsum, hrest⟩ := Option.bind_eq_some_iff.mp h
    obtain ⟨others, hothers, rfl⟩ := Option.map_eq_some_iff.mp hrest
    exact Or.inl ⟨hkey, sum, others, hsum, hothers, rfl⟩
  · rw [if_neg hkey] at h
    obtain ⟨others, hothers, rfl⟩ := Option.map_eq_some_iff.mp h
    exact Or.inr ⟨hkey, others, hothers, rfl⟩

theorem exists_key_of_mem_sweepFromWith (h : sweepFromWith add entry rest = some swept)
    (hmem : update ∈ swept) : ∃ source ∈ entry :: rest, source.1 = update.1 := by
  induction rest generalizing entry swept with
  | nil =>
    cases h
    exact ⟨entry, List.mem_cons_self, by rw [List.mem_singleton.mp hmem]⟩
  | cons next rest ih =>
    rcases sweepFromWith_cons_cases h with ⟨_, sum, others, _, hothers, rfl⟩ | ⟨_, others, hothers, rfl⟩
    · rcases List.mem_cons.mp hmem with rfl | htail
      · exact ⟨entry, List.mem_cons_self, rfl⟩
      · obtain ⟨source, hsource, hkey⟩ := ih hothers htail
        rcases List.mem_cons.mp hsource with rfl | hrest
        · exact ⟨next, by simp, hkey⟩
        · exact ⟨source, by simp [hrest], hkey⟩
    · rcases List.mem_cons.mp hmem with rfl | htail
      · exact ⟨update, List.mem_cons_self, rfl⟩
      · obtain ⟨source, hsource, hkey⟩ := ih hothers htail
        exact ⟨source, List.mem_cons_of_mem _ hsource, hkey⟩

/-- Keys of consolidated updates are keys of the original ones. -/
theorem exists_key_of_mem_consolidateWith (h : consolidateWith add updates = some result)
    (hmem : update ∈ result) : ∃ source ∈ updates, source.1 = update.1 := by
  unfold consolidateWith at h
  obtain ⟨swept, hswept, rfl⟩ := Option.map_eq_some_iff.mp h
  have hsource : ∃ source ∈ updates.insertionSort updateBefore, source.1 = update.1 := by
    cases hsorted : updates.insertionSort updateBefore with
    | nil =>
      rw [hsorted] at hswept
      cases hswept
      cases hmem
    | cons entry rest =>
      rw [hsorted] at hswept
      exact exists_key_of_mem_sweepFromWith hswept (List.mem_of_mem_filter hmem)
  obtain ⟨source, hsource, hkey⟩ := hsource
  exact ⟨source, (List.mem_insertionSort _).mp hsource, hkey⟩

theorem ne_zero_of_mem_consolidateWith (h : consolidateWith add updates = some result)
    (hmem : update ∈ result) : update.2 ≠ 0 := by
  unfold consolidateWith at h
  obtain ⟨swept, -, rfl⟩ := Option.map_eq_some_iff.mp h
  simpa using List.of_mem_filter hmem

/-- A pass that goes through gives the same with an addition that extends the first. -/
theorem sweepFromWith_mono {more : ℤ → ℤ → Option ℤ} (hextends : Extends add more)
    (h : sweepFromWith add entry rest = some swept) : sweepFromWith more entry rest = some swept := by
  induction rest generalizing entry swept with
  | nil => exact h
  | cons next rest ih =>
    unfold sweepFromWith
    rcases sweepFromWith_cons_cases h with ⟨hkey, sum, others, hsum, hothers, rfl⟩ |
      ⟨hkey, others, hothers, rfl⟩
    · rw [if_pos hkey, hextends _ _ _ hsum, Option.bind_some, ih hothers, Option.map_some]
    · rw [if_neg hkey, ih hothers, Option.map_some]

theorem consolidateWith_mono {more : ℤ → ℤ → Option ℤ} (hextends : Extends add more)
    (h : consolidateWith add updates = some result) : consolidateWith more updates = some result := by
  unfold consolidateWith at h ⊢
  obtain ⟨swept, hswept, rfl⟩ := Option.map_eq_some_iff.mp h
  rw [Option.map_eq_some_iff]
  refine ⟨swept, ?_, rfl⟩
  cases hsorted : updates.insertionSort updateBefore with
  | nil =>
    rw [hsorted] at hswept
    exact hswept
  | cons entry rest =>
    rw [hsorted] at hswept
    exact sweepFromWith_mono hextends hswept

section Magnitude

variable {limit : ℕ} (hadds : AddsWithin add limit)

include hadds

/-- Where the deltas together do not exceed the limit, the pass goes through, and the deltas it
    leaves do not exceed those it found. -/
theorem exists_sweepFromWith (h : magnitude (entry :: rest) ≤ limit) :
    ∃ swept, sweepFromWith add entry rest = some swept ∧ magnitude swept ≤ magnitude (entry :: rest) := by
  induction rest generalizing entry with
  | nil => exact ⟨_, rfl, le_rfl⟩
  | cons next rest ih =>
    rw [magnitude_cons, magnitude_cons] at h
    unfold sweepFromWith
    by_cases hkey : entry.1 = next.1
    · obtain ⟨sum, hsum⟩ := hadds.exists_sum next.2 entry.2 (by omega)
      have hsmall := hadds.natAbs_le hsum
      have hmerged : magnitude ((next.1, sum) :: rest) ≤ limit := by
        rw [magnitude_cons]
        omega
      obtain ⟨swept, hswept, hle⟩ := ih hmerged
      refine ⟨(entry.1, 0) :: swept, ?_, ?_⟩
      · rw [if_pos hkey, hsum, Option.bind_some, hswept, Option.map_some]
      · rw [magnitude_cons] at hle
        rw [magnitude_cons, magnitude_cons, magnitude_cons, Int.natAbs_zero]
        omega
    · have hskipped : magnitude (next :: rest) ≤ limit := by
        rw [magnitude_cons]
        omega
      obtain ⟨swept, hswept, hle⟩ := ih hskipped
      refine ⟨entry :: swept, ?_, ?_⟩
      · rw [if_neg hkey, hswept, Option.map_some]
      · rw [magnitude_cons, magnitude_cons entry]
        omega

theorem exists_consolidateWith (h : magnitude updates ≤ limit) :
    ∃ result, consolidateWith add updates = some result ∧ magnitude result ≤ magnitude updates := by
  have hsame : magnitude (updates.insertionSort updateBefore) = magnitude updates :=
    ((List.perm_insertionSort _ updates).map _).sum_eq
  unfold consolidateWith
  cases hsorted : updates.insertionSort updateBefore with
  | nil => exact ⟨[], rfl, Nat.zero_le _⟩
  | cons entry rest =>
    rw [← hsame, hsorted] at h ⊢
    obtain ⟨swept, hswept, hle⟩ := exists_sweepFromWith hadds h
    refine ⟨_, Option.map_eq_some_iff.mpr ⟨swept, hswept, rfl⟩, ?_⟩
    have hkept : magnitude (swept.filter fun update => update.2 ≠ 0) ≤ magnitude swept :=
      magnitude_le_of_sublist List.filter_sublist
    exact hkept.trans hle

end Magnitude

end AnyAddition

/-- Keys of consolidated updates are keys of the original ones. -/
theorem exists_key_of_mem_consolidate {updates : List (K × ℤ)} {update : K × ℤ}
    (h : update ∈ consolidate updates) : ∃ source ∈ updates, source.1 = update.1 :=
  exists_key_of_mem_consolidateWith (consolidateWith_exact updates) h

theorem ne_zero_of_mem_consolidate {updates : List (K × ℤ)} {update : K × ℤ}
    (h : update ∈ consolidate updates) : update.2 ≠ 0 :=
  ne_zero_of_mem_consolidateWith (consolidateWith_exact updates) h

/-- Consolidating keeps the sum of every key. -/
@[simp] theorem tally_consolidate (updates : List (K × ℤ)) (key : K) :
    tally (consolidate updates) key = tally updates key := by
  unfold consolidate
  rw [tally_filter_ne_zero, tally_sweep]
  exact tally_perm (List.perm_insertionSort _ _) key

section Sorted

variable [Std.TransOrd K] [Std.LawfulEqOrd K]

theorem keyLt_of_updateBefore_of_ne {first second : K × ℤ} (h : updateBefore first second)
    (hne : first.1 ≠ second.1) : keyLt first second := by
  unfold updateBefore sortsBefore at h
  unfold keyLt
  cases hcompare : compare first.1 second.1 with
  | lt => rfl
  | eq => exact absurd (Std.LawfulEqOrd.eq_of_compare hcompare) hne
  | gt => rw [hcompare] at h; cases h

theorem keyLt_of_keyLt_of_updateBefore {first second third : K × ℤ} (h : keyLt first second)
    (h' : updateBefore second third) : keyLt first third :=
  Std.TransCmp.lt_of_lt_of_isLE h h'

theorem ne_of_keyLt {first second : K × ℤ} (h : keyLt first second) : first.1 ≠ second.1 := by
  intro heq
  unfold keyLt at h
  rw [heq, Std.ReflOrd.compare_self] at h
  cases h

theorem pairwise_filter_sweepFromWith {add : ℤ → ℤ → Option ℤ} {entry : K × ℤ}
    {rest swept : List (K × ℤ)} (hsorted : (entry :: rest).Pairwise updateBefore)
    (h : sweepFromWith add entry rest = some swept) :
    (swept.filter fun update => update.2 ≠ 0).Pairwise keyLt := by
  induction rest generalizing entry swept with
  | nil =>
    cases h
    exact List.Pairwise.filter _ (List.pairwise_singleton _ _)
  | cons next rest ih =>
    rw [List.pairwise_cons] at hsorted
    have htail := List.pairwise_cons.mp hsorted.2
    rcases sweepFromWith_cons_cases h with ⟨_, sum, others, _, hothers, rfl⟩ |
      ⟨hne, others, hothers, rfl⟩
    · rw [List.filter_cons_of_neg (by simp)]
      apply ih _ hothers
      exact List.pairwise_cons.mpr ⟨fun other hother => htail.1 other hother, htail.2⟩
    · have hlt : keyLt entry next := keyLt_of_updateBefore_of_ne (hsorted.1 next (by simp)) hne
      have hrest := ih hsorted.2 hothers
      have hbelow : ∀ update ∈ others.filter fun update => update.2 ≠ 0, keyLt entry update := by
        intro update hupdate
        obtain ⟨source, hsource, hkey⟩ :=
          exists_key_of_mem_sweepFromWith hothers (List.mem_of_mem_filter hupdate)
        have hsourceLt : keyLt entry source := by
          rcases List.mem_cons.mp hsource with rfl | hmem
          · exact hlt
          · exact keyLt_of_keyLt_of_updateBefore hlt (htail.1 source hmem)
        unfold keyLt at hsourceLt ⊢
        rw [← hkey]
        exact hsourceLt
      by_cases hzero : entry.2 = 0
      · rw [List.filter_cons_of_neg (by simpa using hzero)]
        exact hrest
      · rw [List.filter_cons_of_pos (by simpa using hzero)]
        exact List.pairwise_cons.mpr ⟨hbelow, hrest⟩

/-- The keys of consolidated updates strictly ascend, however deltas are added. -/
theorem pairwise_consolidateWith {add : ℤ → ℤ → Option ℤ} {updates result : List (K × ℤ)}
    (h : consolidateWith add updates = some result) : result.Pairwise keyLt := by
  unfold consolidateWith at h
  obtain ⟨swept, hswept, rfl⟩ := Option.map_eq_some_iff.mp h
  have hsorted : (updates.insertionSort updateBefore).Pairwise updateBefore :=
    List.pairwise_insertionSort _ _
  cases hupdates : updates.insertionSort updateBefore with
  | nil =>
    rw [hupdates] at hswept
    cases hswept
    exact List.Pairwise.nil
  | cons entry rest =>
    rw [hupdates] at hswept hsorted
    exact pairwise_filter_sweepFromWith hsorted hswept

theorem pairwise_consolidate (updates : List (K × ℤ)) :
    (consolidate updates).Pairwise keyLt :=
  pairwise_consolidateWith (consolidateWith_exact updates)

theorem nodup_keys_of_pairwise {updates : List (K × ℤ)} (h : updates.Pairwise keyLt) :
    (updates.map Prod.fst).Nodup :=
  List.pairwise_map.mpr (h.imp fun hlt => ne_of_keyLt hlt)

end Sorted

/-! ### The batch -/

/-- A list of updates to which we append, with the length of its compact prefix. -/
structure ChangeBatch (K : Type) [Ord K] where
  updates : List (K × ℤ)
  clean : ℕ
  clean_le : clean ≤ updates.length
  clean_sorted : (updates.take clean).Pairwise keyLt

namespace ChangeBatch

theorem ext {first second : ChangeBatch K} (hupdates : first.updates = second.updates)
    (hclean : first.clean = second.clean) : first = second := by
  cases first
  cases second
  cases hupdates
  cases hclean
  rfl

/-- The sum of the deltas that a batch holds for a key. -/
def value (batch : ChangeBatch K) (key : K) : ℤ := tally batch.updates key

/-- Allocates a new empty `ChangeBatch`. -/
def new : ChangeBatch K := ⟨[], 0, Nat.zero_le _, List.Pairwise.nil⟩

instance : Inhabited (ChangeBatch K) := ⟨new⟩

/-- Appends updates without compacting. -/
def append (batch : ChangeBatch K) (more : List (K × ℤ)) : ChangeBatch K where
  updates := batch.updates ++ more
  clean := batch.clean
  clean_le := by
    rw [List.length_append]
    exact le_trans batch.clean_le (Nat.le_add_right _ _)
  clean_sorted := by
    rw [List.take_append_of_le_length batch.clean_le]
    exact batch.clean_sorted

/-- Clears the map. -/
def clear (_ : ChangeBatch K) : ChangeBatch K := new

variable [Std.TransOrd K] [Std.LawfulEqOrd K]

/-- Compact the internal representation, when some of it is not known to be compact. -/
def compact (batch : ChangeBatch K) : ChangeBatch K :=
  if h : batch.clean < batch.updates.length ∧ 1 < batch.updates.length then
    { updates := consolidate batch.updates
      clean := (consolidate batch.updates).length
      clean_le := le_rfl
      clean_sorted := by
        rw [List.take_length]
        exact pairwise_consolidate _ }
  else
    { updates := batch.updates
      clean := batch.updates.length
      clean_le := le_rfl
      clean_sorted := by
        rw [List.take_length]
        by_cases hclean : batch.clean < batch.updates.length
        · -- at most one update: nothing to compare
          have hlength : batch.updates.length ≤ 1 := by
            by_contra hlong
            exact h ⟨hclean, Nat.lt_of_not_le hlong⟩
          match hupdates : batch.updates with
          | [] => exact List.Pairwise.nil
          | [update] => exact List.pairwise_singleton _ _
          | _ :: _ :: _ => simp [hupdates] at hlength
        · have hsorted := batch.clean_sorted
          rwa [List.take_of_length_le (Nat.le_of_not_lt hclean)] at hsorted }

/-- Compacts once more than 32 updates are held and at least half are not clean. -/
def maintain_bounds (batch : ChangeBatch K) : ChangeBatch K :=
  if 32 < batch.updates.length ∧ batch.clean ≤ batch.updates.length >>> 1 then batch.compact
  else batch

/-- Adds a new update, for `item` with `value`. -/
def update (batch : ChangeBatch K) (item : K) (value : ℤ) : ChangeBatch K :=
  (batch.append [(item, value)]).maintain_bounds

/-- Allocates a new `ChangeBatch` with a single entry. -/
def new_from (key : K) (value : ℤ) : ChangeBatch K := new.update key value

/-- Performs a sequence of updates described by `iterator`. -/
def extend (batch : ChangeBatch K) (iterator : List (K × ℤ)) : ChangeBatch K :=
  (batch.append iterator).maintain_bounds

/-- Iterates over the contents of the map, and the batch this leaves. -/
def iter (batch : ChangeBatch K) : List (K × ℤ) × ChangeBatch K :=
  (batch.compact.updates, batch.compact)

/-- Extracts the updates from the map, consuming it. -/
def into_inner (batch : ChangeBatch K) : List (K × ℤ) := batch.compact.updates

/-- Drains the set of updates, leaving an empty batch. -/
def drain (batch : ChangeBatch K) : List (K × ℤ) × ChangeBatch K :=
  (batch.compact.updates, new)

/-- True iff all keys have value zero, and the batch this leaves. -/
def is_empty (batch : ChangeBatch K) : Bool × ChangeBatch K :=
  if batch.clean > batch.updates.length / 2 then (false, batch)
  else (batch.compact.updates.isEmpty, batch.compact)

/-- Drains `batch` into `other`: the pair is what is left and what `other` becomes. -/
def drain_into (batch other : ChangeBatch K) : ChangeBatch K × ChangeBatch K :=
  if other.updates.isEmpty then (other, batch) else (new, other.extend batch.updates)

/-! ### Effect on the value -/

@[simp] theorem value_new (key : K) : (new : ChangeBatch K).value key = 0 := rfl

@[simp] theorem value_append (batch : ChangeBatch K) (more : List (K × ℤ)) (key : K) :
    (batch.append more).value key = batch.value key + tally more key :=
  tally_append _ _ _

@[simp] theorem tally_compact (batch : ChangeBatch K) (key : K) :
    tally batch.compact.updates key = batch.value key := by
  unfold compact
  split
  case isTrue => exact tally_consolidate _ _
  case isFalse => rfl

@[simp] theorem value_compact (batch : ChangeBatch K) (key : K) :
    batch.compact.value key = batch.value key := tally_compact batch key

@[simp] theorem value_maintain_bounds (batch : ChangeBatch K) (key : K) :
    batch.maintain_bounds.value key = batch.value key := by
  unfold maintain_bounds
  split
  case isTrue => exact value_compact batch key
  case isFalse => rfl

@[simp] theorem value_update (batch : ChangeBatch K) (item : K) (delta : ℤ) (key : K) :
    (batch.update item delta).value key = batch.value key + if item = key then delta else 0 := by
  simp [update]

@[simp] theorem value_new_from (item : K) (delta : ℤ) (key : K) :
    (new_from item delta).value key = if item = key then delta else 0 := by
  simp [new_from]

@[simp] theorem value_extend (batch : ChangeBatch K) (iterator : List (K × ℤ)) (key : K) :
    (batch.extend iterator).value key = batch.value key + tally iterator key := by
  simp [extend]

theorem value_foldl_update (batch : ChangeBatch K) (updates : List (K × ℤ)) (key : K) :
    (updates.foldl (fun kept u => kept.update u.1 u.2) batch).value key =
      batch.value key + tally updates key := by
  induction updates generalizing batch with
  | nil => simp
  | cons u updates ih => simp only [List.foldl_cons, ih, value_update, tally_cons]; omega

@[simp] theorem value_is_empty (batch : ChangeBatch K) (key : K) :
    batch.is_empty.2.value key = batch.value key := by
  unfold is_empty
  split
  · rfl
  · exact value_compact batch key

theorem value_of_is_empty {batch : ChangeBatch K} (h : batch.is_empty.1 = true) (key : K) :
    batch.value key = 0 := by
  unfold is_empty at h
  split at h
  · cases h
  · rw [← tally_compact, List.isEmpty_iff.mp h, tally_nil]

/-- `drain_into` moves every sum, whether it swapped or extended. -/
theorem value_drain_into (batch other : ChangeBatch K) (key : K) :
    (batch.drain_into other).2.value key = batch.value key + other.value key ∧
      (batch.drain_into other).1.value key = 0 := by
  unfold drain_into
  split
  case isTrue hempty =>
    have hnil : other.updates = [] := List.isEmpty_iff.mp hempty
    constructor
    · simp [value, hnil]
    · simp [value, hnil]
  case isFalse =>
    constructor
    · simp only [value_extend]
      exact Int.add_comm _ _
    · rfl

/-! ### Shape of the exposed updates -/

theorem compact_clean (batch : ChangeBatch K) :
    batch.compact.clean = batch.compact.updates.length := by
  unfold compact
  split <;> rfl

theorem compact_sorted (batch : ChangeBatch K) : batch.compact.updates.Pairwise keyLt := by
  have hsorted := batch.compact.clean_sorted
  rwa [compact_clean, List.take_length] at hsorted

theorem compact_nodup_keys (batch : ChangeBatch K) :
    (batch.compact.updates.map Prod.fst).Nodup :=
  nodup_keys_of_pairwise batch.compact_sorted

/-- Compacting a batch that is clean throughout changes nothing. -/
theorem compact_of_clean {batch : ChangeBatch K} (h : batch.clean = batch.updates.length) :
    batch.compact = batch := by
  unfold compact
  rw [dif_neg (by omega)]
  exact ext rfl h.symm

theorem compact_compact (batch : ChangeBatch K) : batch.compact.compact = batch.compact :=
  compact_of_clean batch.compact_clean

theorem exists_key_of_mem_compact {batch : ChangeBatch K} {update : K × ℤ}
    (h : update ∈ batch.compact.updates) : ∃ source ∈ batch.updates, source.1 = update.1 := by
  unfold compact at h
  split at h
  case isTrue => exact exists_key_of_mem_consolidate h
  case isFalse => exact ⟨update, h, rfl⟩

/-- Updating a batch brings in no key but the updated one. -/
theorem exists_key_of_mem_update {batch : ChangeBatch K} {item : K} {delta : ℤ} {update : K × ℤ}
    (h : update ∈ (batch.update item delta).updates) :
    update.1 = item ∨ ∃ source ∈ batch.updates, source.1 = update.1 := by
  have happend : ∃ source ∈ (batch.append [(item, delta)]).updates, source.1 = update.1 := by
    unfold ChangeBatch.update maintain_bounds at h
    split at h
    case isTrue => exact exists_key_of_mem_compact h
    case isFalse => exact ⟨update, h, rfl⟩
  obtain ⟨source, hsource, hkey⟩ := happend
  rcases List.mem_append.mp hsource with hmem | hmem
  · exact Or.inr ⟨source, hmem, hkey⟩
  · rw [List.mem_singleton] at hmem
    exact Or.inl (by rw [← hkey, hmem])

/-- Every update of the batch has a key of the given kind. -/
def KeysIn (batch : ChangeBatch K) (P : K → Prop) : Prop := ∀ update ∈ batch.updates, P update.1

theorem keysIn_new (P : K → Prop) : (new : ChangeBatch K).KeysIn P :=
  fun _ h => absurd h List.not_mem_nil

theorem KeysIn.compact {batch : ChangeBatch K} {P : K → Prop} (h : batch.KeysIn P) :
    batch.compact.KeysIn P := by
  intro update hupdate
  obtain ⟨source, hsource, hkey⟩ := exists_key_of_mem_compact hupdate
  rw [← hkey]
  exact h source hsource

theorem KeysIn.is_empty {batch : ChangeBatch K} {P : K → Prop} (h : batch.KeysIn P) :
    batch.is_empty.2.KeysIn P := by
  unfold ChangeBatch.is_empty
  split
  · exact h
  · exact h.compact

theorem KeysIn.update {batch : ChangeBatch K} {P : K → Prop} (h : batch.KeysIn P) (item : K)
    (delta : ℤ) (hitem : P item) : (batch.update item delta).KeysIn P := by
  intro update hupdate
  rcases exists_key_of_mem_update hupdate with heq | ⟨source, hsource, hkey⟩
  · rw [heq]
    exact hitem
  · rw [← hkey]
    exact h source hsource

theorem KeysIn.foldl_update {batch : ChangeBatch K} {P : K → Prop} (h : batch.KeysIn P)
    (updates : List (K × ℤ)) (hupdates : ∀ update ∈ updates, P update.1) :
    (updates.foldl (fun kept update => kept.update update.1 update.2) batch).KeysIn P := by
  induction updates generalizing batch with
  | nil => exact h
  | cons update updates ih =>
    exact ih (h.update update.1 update.2 (hupdates update List.mem_cons_self))
      fun other hother => hupdates other (List.mem_cons_of_mem _ hother)

/-- No update of the batch has value zero. -/
def NonZero (batch : ChangeBatch K) : Prop := ∀ update ∈ batch.updates, update.2 ≠ 0

theorem nonZero_new : (new : ChangeBatch K).NonZero := fun _ h => absurd h List.not_mem_nil

theorem NonZero.compact {batch : ChangeBatch K} (h : batch.NonZero) : batch.compact.NonZero := by
  intro update hupdate
  unfold ChangeBatch.compact at hupdate
  split at hupdate
  case isTrue => exact ne_zero_of_mem_consolidate hupdate
  case isFalse => exact h update hupdate

theorem NonZero.update {batch : ChangeBatch K} (h : batch.NonZero) (item : K) {delta : ℤ}
    (hdelta : delta ≠ 0) : (batch.update item delta).NonZero := by
  have happend : (batch.append [(item, delta)]).NonZero := by
    intro update hupdate
    rcases List.mem_append.mp hupdate with hmem | hmem
    · exact h update hmem
    · rw [List.mem_singleton] at hmem
      rw [hmem]
      exact hdelta
  unfold ChangeBatch.update maintain_bounds
  split
  case isTrue => exact happend.compact
  case isFalse => exact happend

theorem NonZero.foldl_update {batch : ChangeBatch K} (h : batch.NonZero) (updates : List (K × ℤ))
    (hupdates : ∀ u ∈ updates, u.2 ≠ 0) :
    (updates.foldl (fun kept u => kept.update u.1 u.2) batch).NonZero := by
  induction updates generalizing batch with
  | nil => exact h
  | cons u updates ih =>
    exact ih (h.update u.1 (hupdates u (by simp))) fun other hother => hupdates other (by simp [hother])

/-- Where compacting leaves no zero, a batch whose sums are all zero compacts to nothing. -/
theorem compact_updates_eq_nil {batch : ChangeBatch K} (h : batch.compact.NonZero)
    (hzero : ∀ key, batch.value key = 0) : batch.compact.updates = [] := by
  by_contra hne
  obtain ⟨update, hupdate⟩ := List.exists_mem_of_ne_nil _ hne
  have hsum := tally_of_mem_of_nodup batch.compact_nodup_keys hupdate
  rw [tally_compact, hzero] at hsum
  exact h update hupdate hsum.symm

/-- Sums that are all zero leave no more clean updates than others: each clean one has its
    own key, which must come again. -/
theorem clean_le_of_value_eq_zero {batch : ChangeBatch K}
    (h : ∀ update ∈ batch.updates.take batch.clean, update.2 ≠ 0)
    (hzero : ∀ key, batch.value key = 0) : batch.clean ≤ batch.updates.length - batch.clean := by
  have hnodup := nodup_keys_of_pairwise batch.clean_sorted
  have hsubset : (batch.updates.take batch.clean).map Prod.fst ⊆
      (batch.updates.drop batch.clean).map Prod.fst := by
    intro key hkey
    obtain ⟨update, hupdate, rfl⟩ := List.mem_map.mp hkey
    have hsum := hzero update.1
    unfold value at hsum
    rw [← List.take_append_drop batch.clean batch.updates, tally_append,
      tally_of_mem_of_nodup hnodup hupdate] at hsum
    have hne := h update hupdate
    have hrest : tally (batch.updates.drop batch.clean) update.1 ≠ 0 := by omega
    obtain ⟨other, hother, heq⟩ := exists_mem_of_tally_ne_zero hrest
    exact List.mem_map.mpr ⟨other, hother, heq⟩
  have hlength := (hnodup.subperm hsubset).length_le
  have hclean := batch.clean_le
  simp only [List.length_map, List.length_take, List.length_drop] at hlength
  omega

/-- Without zero updates `is_empty` tells whether all sums are zero, also where it answers
    without compacting. -/
theorem is_empty_iff {batch : ChangeBatch K} (h : batch.NonZero) :
    batch.is_empty.1 = true ↔ ∀ key, batch.value key = 0 := by
  constructor
  · exact value_of_is_empty
  · intro hzero
    have hclean := clean_le_of_value_eq_zero (fun update hupdate => h update (List.mem_of_mem_take hupdate)) hzero
    have hle := batch.clean_le
    unfold is_empty
    rw [if_neg (by omega), compact_updates_eq_nil h.compact hzero]
    rfl

theorem NonZero.is_empty {batch : ChangeBatch K} (h : batch.NonZero) : batch.is_empty.2.NonZero := by
  unfold ChangeBatch.is_empty
  split
  · exact h
  · exact h.compact

end ChangeBatch

end Timely
