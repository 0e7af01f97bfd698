/-
  Timely/Library/Tally.lean
  =========================
  **Signed multisets written as lists of updates.**

  A list of pairs `(key, delta)` stands for the function that sends a key to the
  sum of its deltas.  `tally` is that function and `weigh` is its pairing with a
  weight on the keys.  Everything that only depends on the sums (sorting,
  consolidating, splitting an update stream, moving it from one buffer to
  another) is stated once here, for an arbitrary type of keys.  `magnitude` bounds
  all sums of deltas of a list.
-/
import Mathlib.Algebra.BigOperators.Group.Finset.Basic
import Mathlib.Algebra.BigOperators.Ring.Finset
import Mathlib.Algebra.Order.BigOperators.Group.List
import Mathlib.Algebra.Order.Group.Int
import Mathlib.Data.Int.Cast.Lemmas
import Mathlib.Data.List.Dedup
import Mathlib.Algebra.BigOperators.Group.List.Basic
import Mathlib.Tactic.Ring
import Mathlib.Tactic.Linarith

namespace Library

variable {K L : Type*}

/-! ### Pairing updates with a weight on the keys -/

/-- The pairing of a list of updates with a weight on the keys. -/
def weigh (updates : List (K × ℤ)) (weight : K → ℤ) : ℤ :=
  (updates.map fun update => update.2 * weight update.1).sum

@[simp] theorem weigh_nil (weight : K → ℤ) : weigh [] weight = 0 := rfl

@[simp] theorem weigh_cons (update : K × ℤ) (updates : List (K × ℤ)) (weight : K → ℤ) :
    weigh (update :: updates) weight = update.2 * weight update.1 + weigh updates weight := by
  simp [weigh]

@[simp] theorem weigh_append (first second : List (K × ℤ)) (weight : K → ℤ) :
    weigh (first ++ second) weight = weigh first weight + weigh second weight := by
  simp [weigh]

/-- Pairing against unit updates is the plain sum of the weights. -/
theorem weigh_units (keys : List K) (weight : K → ℤ) :
    weigh (keys.map fun key => (key, 1)) weight = (keys.map weight).sum := by
  induction keys with
  | nil => rfl
  | cons key keys ih => simp [ih]

/-! ### Magnitudes -/

/-- The absolute values of all deltas, added up. -/
def magnitude (updates : List (K × ℤ)) : ℕ :=
  (updates.map fun update => update.2.natAbs).sum

theorem magnitude_cons (update : K × ℤ) (updates : List (K × ℤ)) :
    magnitude (update :: updates) = update.2.natAbs + magnitude updates :=
  List.sum_cons

theorem magnitude_append (updates more : List (K × ℤ)) :
    magnitude (updates ++ more) = magnitude updates + magnitude more := by
  unfold magnitude
  rw [List.map_append, List.sum_append]

theorem magnitude_le_of_sublist {updates more : List (K × ℤ)} (h : updates.Sublist more) :
    magnitude updates ≤ magnitude more :=
  (h.map _).sum_le_sum fun _ _ => Nat.zero_le _

/-! ### Updates sent along a relabelling of the keys -/

/-- Every update of `updates` copied to each of the keys that `targets` gives for it. -/
def scatter (targets : K → List L) (updates : List (K × ℤ)) : List (L × ℤ) :=
  updates.flatMap fun update => (targets update.1).map fun target => (target, update.2)

theorem mem_scatter {targets : K → List L} {updates : List (K × ℤ)} {entry : L × ℤ} :
    entry ∈ scatter targets updates ↔
      ∃ update ∈ updates, entry.1 ∈ targets update.1 ∧ entry.2 = update.2 := by
  simp only [scatter, List.mem_flatMap, List.mem_map]
  constructor
  · rintro ⟨update, hupdate, target, htarget, rfl⟩
    exact ⟨update, hupdate, htarget, rfl⟩
  · rintro ⟨update, hupdate, htarget, hdelta⟩
    exact ⟨update, hupdate, entry.1, htarget, by rw [← hdelta]⟩

/-! ### The sum of the deltas of one key -/

variable [DecidableEq K] [DecidableEq L]

/-- The sum of the deltas that a list of updates holds for `key`. -/
def tally (updates : List (K × ℤ)) (key : K) : ℤ :=
  weigh updates fun other => if other = key then 1 else 0

@[simp] theorem tally_nil (key : K) : tally ([] : List (K × ℤ)) key = 0 := rfl

@[simp] theorem tally_cons (update : K × ℤ) (updates : List (K × ℤ)) (key : K) :
    tally (update :: updates) key =
      (if update.1 = key then update.2 else 0) + tally updates key := by
  simp [tally]

@[simp] theorem tally_append (first second : List (K × ℤ)) (key : K) :
    tally (first ++ second) key = tally first key + tally second key := by
  simp [tally]

theorem tally_perm {first second : List (K × ℤ)} (h : first.Perm second) (key : K) :
    tally first key = tally second key := by
  unfold tally weigh
  exact (h.map _).sum_eq

/-- Dropping updates of value zero changes no sum. -/
theorem tally_filter_ne_zero (updates : List (K × ℤ)) (key : K) :
    tally (updates.filter fun update => update.2 ≠ 0) key = tally updates key := by
  induction updates with
  | nil => rfl
  | cons update updates ih =>
    by_cases h : update.2 = 0
    · rw [List.filter_cons_of_neg (by simpa using h), ih, tally_cons, h, ite_self, zero_add]
    · rw [List.filter_cons_of_pos (by simpa using h), tally_cons, tally_cons, ih]

theorem tally_nonneg {updates : List (K × ℤ)} (h : ∀ update ∈ updates, 0 ≤ update.2) (key : K) :
    0 ≤ tally updates key := by
  induction updates with
  | nil => exact le_rfl
  | cons update updates ih =>
    obtain ⟨hfirst, hrest⟩ := List.forall_mem_cons.mp h
    rw [tally_cons]
    refine add_nonneg ?_ (ih hrest)
    split
    · exact hfirst
    · exact le_rfl

theorem tally_eq_zero_of_not_mem {updates : List (K × ℤ)} {key : K}
    (h : ∀ update ∈ updates, update.1 ≠ key) : tally updates key = 0 := by
  induction updates with
  | nil => rfl
  | cons update updates ih =>
    rw [tally_cons, if_neg (h update (by simp)), ih, zero_add]
    intro other hother
    exact h other (by simp [hother])

theorem tally_of_same_key {updates : List (K × ℤ)} {key : K}
    (h : ∀ update ∈ updates, update.1 = key) :
    tally updates key = (updates.map Prod.snd).sum := by
  induction updates with
  | nil => rfl
  | cons update updates ih =>
    rw [tally_cons, if_pos (h update (by simp)), ih fun other hother => h other (by simp [hother]),
      List.map_cons, List.sum_cons]

/-- A key with a sum other than zero occurs among the updates. -/
theorem exists_mem_of_tally_ne_zero {updates : List (K × ℤ)} {key : K}
    (h : tally updates key ≠ 0) : ∃ update ∈ updates, update.1 = key := by
  by_contra hno
  push Not at hno
  exact h (tally_eq_zero_of_not_mem hno)

/-- A key with a positive sum has a positive update. -/
theorem exists_pos_of_tally_pos {updates : List (K × ℤ)} {key : K}
    (h : 0 < tally updates key) : ∃ update ∈ updates, update.1 = key ∧ 0 < update.2 := by
  induction updates with
  | nil => simp at h
  | cons update updates ih =>
    rw [tally_cons] at h
    by_cases hhead : update.1 = key ∧ 0 < update.2
    · exact ⟨update, by simp, hhead⟩
    · have htail : 0 < tally updates key := by
        by_cases hkey : update.1 = key
        · have : ¬ 0 < update.2 := fun hpos => hhead ⟨hkey, hpos⟩
          rw [if_pos hkey] at h
          omega
        · rw [if_neg hkey] at h
          omega
      obtain ⟨other, hmem, hother⟩ := ih htail
      exact ⟨other, by simp [hmem], hother⟩

/-- With distinct keys the sum of a key that occurs is its one delta. -/
theorem tally_of_mem_of_nodup {updates : List (K × ℤ)}
    (hnodup : (updates.map Prod.fst).Nodup) {update : K × ℤ} (hmem : update ∈ updates) :
    tally updates update.1 = update.2 := by
  induction updates with
  | nil => cases hmem
  | cons head updates ih =>
    rw [List.map_cons, List.nodup_cons] at hnodup
    rw [tally_cons]
    rcases List.mem_cons.mp hmem with rfl | htail
    · rw [if_pos rfl, tally_eq_zero_of_not_mem, add_zero]
      intro other hother heq
      exact hnodup.1 (heq ▸ List.mem_map_of_mem hother)
    · have hne : head.1 ≠ update.1 := fun heq =>
        hnodup.1 (heq ▸ List.mem_map_of_mem htail)
      rw [if_neg hne, zero_add, ih hnodup.2 htail]

theorem tally_units_of_nodup {keys : List K} (hnodup : keys.Nodup) (key : K) :
    tally (keys.map fun other => (other, 1)) key = if key ∈ keys then 1 else 0 := by
  induction keys with
  | nil => simp
  | cons head keys ih =>
    rw [List.nodup_cons] at hnodup
    rw [List.map_cons, tally_cons, ih hnodup.2]
    by_cases h : head = key
    · subst h
      simp [hnodup.1]
    · simp [h, Ne.symm h]

theorem tally_neg_of_nodup {keys : List K} (hnodup : keys.Nodup) (key : K) :
    tally (keys.map fun other => (other, -1)) key = if key ∈ keys then -1 else 0 := by
  induction keys with
  | nil => simp
  | cons head keys ih =>
    rw [List.nodup_cons] at hnodup
    rw [List.map_cons, tally_cons, ih hnodup.2]
    by_cases h : head = key
    · subst h
      simp [hnodup.1]
    · simp [h, Ne.symm h]

/-! ### Sums determine every pairing -/

theorem weigh_eq_sum_tally (updates : List (K × ℤ)) (weight : K → ℤ) (keys : Finset K)
    (hkeys : ∀ update ∈ updates, update.1 ∈ keys) :
    weigh updates weight = ∑ key ∈ keys, tally updates key * weight key := by
  induction updates with
  | nil => simp
  | cons update updates ih =>
    have hhead : update.1 ∈ keys := hkeys update (by simp)
    have htail := ih fun other hother => hkeys other (by simp [hother])
    have hone : ∑ key ∈ keys, (if update.1 = key then update.2 else 0) * weight key =
        update.2 * weight update.1 := by
      rw [Finset.sum_eq_single update.1]
      · rw [if_pos rfl]
      · intro other _ hne
        rw [if_neg (Ne.symm hne), zero_mul]
      · exact fun hno => absurd hhead hno
    simp only [weigh_cons, tally_cons, add_mul, Finset.sum_add_distrib, hone, htail]

/-- Two lists of updates with the same sums pair the same with every weight. -/
theorem weigh_congr {first second : List (K × ℤ)}
    (h : ∀ key, tally first key = tally second key) (weight : K → ℤ) :
    weigh first weight = weigh second weight := by
  let keys := ((first ++ second).map Prod.fst).toFinset
  have hmem : ∀ update ∈ first ++ second, update.1 ∈ keys := by
    intro update hupdate
    exact List.mem_toFinset.mpr (List.mem_map_of_mem hupdate)
  rw [weigh_eq_sum_tally first weight keys fun u hu => hmem u (by simp [hu]),
    weigh_eq_sum_tally second weight keys fun u hu => hmem u (by simp [hu])]
  exact Finset.sum_congr rfl fun key _ => by rw [h key]

/-- A change report between two sets pairs to the difference of their sums. -/
theorem weigh_changes {changes : List (K × ℤ)} {old new : List K}
    (hold : old.Nodup) (hnew : new.Nodup)
    (h : ∀ key, tally changes key =
      (if key ∈ new then 1 else 0) - (if key ∈ old then 1 else 0)) (weight : K → ℤ) :
    weigh changes weight = (new.map weight).sum - (old.map weight).sum := by
  have hsame : weigh (changes ++ old.map fun key => (key, 1)) weight =
      weigh (new.map fun key => (key, 1)) weight := by
    apply weigh_congr
    intro key
    rw [tally_append, h, tally_units_of_nodup hold, tally_units_of_nodup hnew]
    ring
  rw [weigh_append, weigh_units, weigh_units] at hsame
  linarith

/-! ### Sums of sent updates -/

theorem tally_map_const [BEq L] [LawfulBEq L] (keys : List L) (delta : ℤ) (key : L) :
    tally (keys.map fun other => (other, delta)) key = delta * (keys.count key : ℤ) := by
  induction keys with
  | nil => simp
  | cons head keys ih =>
    rw [List.map_cons, tally_cons, ih]
    by_cases h : head = key
    · subst h
      simp [List.count_cons_self]; ring
    · simp [h, List.count_cons_of_ne h]

omit [DecidableEq K] in
/-- What a key receives is the pairing of the updates with its number of occurrences. -/
theorem tally_scatter [BEq L] [LawfulBEq L] (targets : K → List L) (updates : List (K × ℤ)) (key : L) :
    tally (scatter targets updates) key =
      weigh updates fun source => ((targets source).count key : ℤ) := by
  induction updates with
  | nil => rfl
  | cons update updates ih =>
    have hsplit : scatter targets (update :: updates) =
        ((targets update.1).map fun target => (target, update.2)) ++ scatter targets updates := by
      simp [scatter]
    rw [hsplit, tally_append, ih, weigh_cons, tally_map_const]

omit [DecidableEq K] in
/-- The sums under renamed keys add up the sums of all keys with that name. -/
theorem tally_map (rename : K → L) (updates : List (K × ℤ)) (key : L) :
    tally (updates.map fun update => (rename update.1, update.2)) key =
      weigh updates fun other => if rename other = key then 1 else 0 := by
  induction updates with
  | nil => rfl
  | cons update updates ih =>
    rw [List.map_cons, tally_cons, weigh_cons, ih, mul_ite, mul_one, mul_zero]

/-- Renaming the keys injectively renames the sums. -/
theorem tally_map_injective {f : K → L} (hf : Function.Injective f)
    (updates : List (K × ℤ)) (key : K) :
    tally (updates.map fun update => (f update.1, update.2)) (f key) =
      tally updates key := by
  induction updates with
  | nil => rfl
  | cons update updates ih =>
    rw [List.map_cons, tally_cons, tally_cons, ih]
    by_cases h : update.1 = key
    · rw [if_pos (congrArg f h), if_pos h]
    · rw [if_neg fun heq => h (hf heq), if_neg h]

end Library
