/-
  Timely/Library/Keyed.lean
  =========================
  **Records under keys.**

  A log holds records under keys, and a map is updated one entry at a time.  What
  a map holds under a key after such updates is what the records of that key make
  of the value that was there before.
-/
import Mathlib.Data.List.AList

namespace Library

variable {K A V : Type*} [DecidableEq K]

/-! ### Logs -/

/-- The records of a log under a key, in order. -/
def recordsAt (key : K) (log : List (K × A)) : List A :=
  (log.filter fun entry => entry.1 = key).map Prod.snd

@[simp] theorem recordsAt_append (key : K) (log more : List (K × A)) :
    recordsAt key (log ++ more) = recordsAt key log ++ recordsAt key more := by
  unfold recordsAt
  rw [List.filter_append, List.map_append]

@[simp] theorem recordsAt_map_same (key : K) (items : List A) :
    recordsAt key (items.map fun item => (key, item)) = items := by
  have hall : items.filter ((fun entry : K × A => decide (entry.1 = key)) ∘ fun item => (key, item)) = items :=
    List.filter_eq_self.mpr fun _ _ => decide_eq_true rfl
  unfold recordsAt
  rw [List.filter_map, List.map_map, hall]
  exact List.map_id _

theorem recordsAt_map_other {key other : K} (h : other ≠ key) (items : List A) :
    recordsAt key (items.map fun item => (other, item)) = [] := by
  unfold recordsAt
  rw [List.map_eq_nil_iff, List.filter_eq_nil_iff]
  intro entry hentry
  obtain ⟨item, -, rfl⟩ := List.mem_map.mp hentry
  simpa using h

theorem recordsAt_singleton_same (key : K) (item : A) : recordsAt key [(key, item)] = [item] :=
  recordsAt_map_same key [item]

theorem recordsAt_singleton_other {key other : K} (h : other ≠ key) (item : A) :
    recordsAt key [(other, item)] = [] :=
  recordsAt_map_other h [item]

theorem mem_recordsAt {key : K} {log : List (K × A)} {item : A} :
    item ∈ recordsAt key log ↔ (key, item) ∈ log := by
  unfold recordsAt
  rw [List.mem_map]
  constructor
  · rintro ⟨⟨other, _⟩, hmem, rfl⟩
    obtain ⟨hlog, hkey⟩ := List.mem_filter.mp hmem
    obtain rfl : other = key := of_decide_eq_true hkey
    exact hlog
  · intro hmem
    exact ⟨(key, item), List.mem_filter.mpr ⟨hmem, decide_eq_true rfl⟩, rfl⟩

theorem recordsAt_eq_nil {key : K} {log : List (K × A)} :
    recordsAt key log = [] ↔ ∀ item, (key, item) ∉ log := by
  rw [List.eq_nil_iff_forall_not_mem]
  exact forall_congr' fun item => not_congr mem_recordsAt

/-! ### Maps -/

/-- Update the value under a key in place; where there is none, insert a default first. -/
def entry_update (map : AList fun _ : K => V) (key : K) (default : V) (update : V → V) :
    AList fun _ : K => V :=
  map.insert key (update ((map.lookup key).getD default))

theorem lookup_entry_update_same (map : AList fun _ : K => V) (key : K) (default : V) (update : V → V) :
    (entry_update map key default update).lookup key = some (update ((map.lookup key).getD default)) :=
  AList.lookup_insert _

theorem lookup_entry_update_other {map : AList fun _ : K => V} {key other : K} (h : other ≠ key)
    (default : V) (update : V → V) : (entry_update map key default update).lookup other = map.lookup other :=
  AList.lookup_insert_ne h

/-- Records that are added one after the other, each to the value under its key. -/
theorem lookup_foldl_entry_update (update : K → A → V → V) (default : V) (log : List (K × A))
    (map : AList fun _ : K => V) (key : K) :
    (log.foldl (fun map record => entry_update map record.1 default (update record.1 record.2)) map).lookup key =
      if recordsAt key log = [] then map.lookup key
      else some ((recordsAt key log).foldl (fun value item => update key item value)
        ((map.lookup key).getD default)) := by
  induction log generalizing map with
  | nil => rfl
  | cons record log ih =>
    obtain ⟨other, item⟩ := record
    have hcons : recordsAt key ((other, item) :: log) = recordsAt key [(other, item)] ++ recordsAt key log :=
      recordsAt_append key [(other, item)] log
    rw [List.foldl_cons, ih, hcons]
    by_cases hsame : other = key
    · subst hsame
      rw [recordsAt_singleton_same, lookup_entry_update_same, List.singleton_append, if_neg (List.cons_ne_nil _ _)]
      split
      case isTrue hnone =>
        rw [hnone]
        rfl
      case isFalse => rfl
    · rw [recordsAt_singleton_other hsame, lookup_entry_update_other (Ne.symm hsame), List.nil_append]

/-- The entries of a map are its values under its keys. -/
theorem map_entries {B : Type*} (map : AList fun _ : K => V) (view : K → V → B) (value : K → V)
    (h : ∀ key ∈ map, map.lookup key = some (value key)) :
    map.entries.map (fun entry => view entry.1 entry.2) = map.keys.map fun key => view key (value key) := by
  unfold AList.keys List.keys
  rw [List.map_map]
  refine List.map_congr_left fun entry hentry => ?_
  have hlookup : map.lookup entry.1 = some entry.2 := AList.mem_lookup_iff.mpr hentry
  have hmem : entry.1 ∈ map := AList.lookup_isSome.mp (by rw [hlookup]; rfl)
  rw [h entry.1 hmem] at hlookup
  exact congrArg (view entry.1) (Option.some.inj hlookup).symm

end Library
