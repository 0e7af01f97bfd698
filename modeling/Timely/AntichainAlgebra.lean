/-
  Timely/AntichainAlgebra.lean
  ============================
  **What antichains stand for** (`timely/src/progress/frontier.rs`, `Antichain`).

  An antichain stands for an up-set: the times that some element is less than or
  equal to.  Inserting grows it, `less_equal` of antichains is its inclusion the
  other way around, and `==` is its equality, as long as the elements are those
  that insertions leave: the minimal ones, each once.
-/
import Timely.Frontier
import Mathlib.Order.CompletePartialOrder

set_option linter.unusedSectionVars false

namespace Timely

open Library

namespace Antichain

variable {T : Type} [PartialOrder T] [DecidableLE T] [DecidableEq T]

/-! ### More of the interface -/

/-- Performs a sequence of insertions; the flag tells whether any of them added its element. -/
def extend (antichain : Antichain T) (iterator : List T) : Bool × Antichain T :=
  iterator.foldl (fun state element =>
    let inserted := state.2.insert element
    (inserted.1 || state.1, inserted.2)) (false, antichain)

/-- `From<Vec<T>>`. -/
def from_vec (vec : List T) : Antichain T := vec.foldl (fun temp elem => (temp.insert elem).2) new

/-- `==`: as many elements, and either the same at each position, or each of the first also
    in the second. -/
def eq (antichain other : Antichain T) : Bool :=
  decide (antichain.elements.length = other.elements.length) &&
    ((antichain.elements.zip other.elements).all (fun pair => pair.1 = pair.2) ||
      antichain.elements.all fun t1 => other.elements.any fun t2 => t1 = t2)

/-- `less_equal` of two antichains, also called `dominates`: each element of the other one is
    greater than or equal to some element of this one. -/
def dominates (antichain other : Antichain T) : Bool :=
  other.elements.all fun t2 => antichain.elements.any fun t1 => t1 ≤ t2

/-- The times that some element of an antichain is less than or equal to. -/
def up_set (antichain : Antichain T) : Set T := {time | antichain.less_equal time = true}

/-- An antichain that has been built by inserting these elements, in this order. -/
inductive Built : Antichain T → List T → Prop
  | from_elem (element : T) : Built (from_elem element) [element]
  | from_vec (vec : List T) : Built (from_vec vec) vec
  | insert {antichain : Antichain T} {elements : List T} (element : T) : Built antichain elements →
      Built (antichain.insert element).2 (elements ++ [element])
  | extend {antichain : Antichain T} {elements : List T} (iterator : List T) :
      Built antichain elements → Built (antichain.extend iterator).2 (elements ++ iterator)

/-! ### Insertions keep the minimal elements -/

theorem mem_up_set {antichain : Antichain T} {time : T} :
    time ∈ antichain.up_set ↔ ∃ least ∈ antichain.elements, least ≤ time := by
  change antichain.less_equal time = true ↔ _
  simp [less_equal]

theorem extend_snoc (antichain : Antichain T) (iterator : List T) (element : T) :
    antichain.extend (iterator ++ [element]) =
      ((((antichain.extend iterator).2.insert element).1 || (antichain.extend iterator).1),
        ((antichain.extend iterator).2.insert element).2) := by
  unfold extend
  rw [List.foldl_append, List.foldl_cons, List.foldl_nil]

theorem from_vec_eq_extend (vec : List T) : from_vec vec = (new.extend vec).2 := by
  induction vec using List.reverseRecOn with
  | nil => rfl
  | append_singleton vec element ih =>
    rw [extend_snoc, ← ih, from_vec, List.foldl_append]
    rfl

theorem isFrontier_insert {antichain : Antichain T} {present : T → Prop}
    (h : IsFrontier antichain.elements present) (element : T) :
    IsFrontier (antichain.insert element).2.elements fun time => present time ∨ time = element := by
  rw [(antichain.insert_eq_insertMinimal element).2]
  exact h.insertMinimal element

theorem isFrontier_extend {antichain : Antichain T} {elements : List T}
    (h : IsFrontier antichain.elements (· ∈ elements)) (iterator : List T) :
    IsFrontier (antichain.extend iterator).2.elements (· ∈ elements ++ iterator) := by
  induction iterator using List.reverseRecOn with
  | nil => exact h.congr fun time => by rw [List.append_nil]
  | append_singleton iterator element ih =>
    rw [extend_snoc]
    exact (isFrontier_insert ih element).congr fun time => by simp [or_assoc]

/-- What is built holds the minimal ones of the elements inserted. -/
theorem Built.isFrontier {antichain : Antichain T} {elements : List T} (h : Built antichain elements) :
    IsFrontier antichain.elements (· ∈ elements) := by
  induction h with
  | from_elem element =>
    refine ⟨fun _ hmem => hmem, List.pairwise_singleton _ _, fun time hmem => ⟨time, hmem, le_rfl⟩⟩
  | from_vec vec =>
    rw [from_vec_eq_extend]
    exact isFrontier_extend (isFrontier_nil fun _ => List.not_mem_nil) vec
  | insert element _ ih =>
    exact (isFrontier_insert ih element).congr fun time => by simp
  | extend iterator _ ih => exact isFrontier_extend ih iterator

/-! ### The up-set grows -/

theorem up_set_insert (antichain : Antichain T) (element : T) :
    (antichain.insert element).2.up_set = antichain.up_set ∪ {time | element ≤ time} := by
  ext time
  rw [Set.mem_union, mem_up_set, mem_up_set, (antichain.insert_eq_insertMinimal element).2]
  exact covers_insertMinimal

/-- An element is added exactly if it is not among the times the antichain stands for. -/
theorem insert_flag (antichain : Antichain T) (element : T) :
    (antichain.insert element).1 = true ↔ element ∉ antichain.up_set := by
  rw [mem_up_set, (antichain.insert_eq_insertMinimal element).1]
  rcases insertMinimal_cases antichain.elements element with ⟨heq, hsome⟩ | ⟨heq, hnone⟩
  · rw [heq]
    exact ⟨fun hfalse => absurd hfalse Bool.false_ne_true, fun hno => absurd hsome hno⟩
  · rw [heq]
    exact ⟨fun _ ⟨least, hleast, hle⟩ => hnone least hleast hle, fun _ => rfl⟩

/-- `insert` tells whether the up-set has grown. -/
theorem insert_grows (antichain : Antichain T) (element : T) :
    (antichain.insert element).1 = true ↔ antichain.up_set ⊂ (antichain.insert element).2.up_set := by
  rw [insert_flag, up_set_insert]
  constructor
  · intro hnew
    exact ⟨Set.subset_union_left, fun hsub => hnew (hsub (Or.inr le_rfl))⟩
  · rintro ⟨-, hgrows⟩ hmem
    apply hgrows
    rintro time (hold | habove)
    · exact hold
    · obtain ⟨least, hleast, hle⟩ := mem_up_set.mp hmem
      exact mem_up_set.mpr ⟨least, hleast, hle.trans habove⟩

theorem up_set_subset_insert (antichain : Antichain T) (element : T) :
    antichain.up_set ⊆ (antichain.insert element).2.up_set := by
  rw [up_set_insert]
  exact Set.subset_union_left

theorem up_set_subset_extend (antichain : Antichain T) (iterator : List T) :
    antichain.up_set ⊆ (antichain.extend iterator).2.up_set := by
  induction iterator using List.reverseRecOn with
  | nil => exact subset_rfl
  | append_singleton iterator element ih =>
    rw [extend_snoc]
    exact ih.trans (up_set_subset_insert _ element)

/-- `extend` tells whether the up-set has grown. -/
theorem extend_grows (antichain : Antichain T) (iterator : List T) :
    (antichain.extend iterator).1 = true ↔
      antichain.up_set ⊂ (antichain.extend iterator).2.up_set := by
  induction iterator using List.reverseRecOn with
  | nil => exact ⟨fun hfalse => absurd hfalse Bool.false_ne_true, fun hgrows => absurd hgrows (ssubset_irrefl _)⟩
  | append_singleton iterator element ih =>
    have hbefore := antichain.up_set_subset_extend iterator
    have hlast := (antichain.extend iterator).2.up_set_subset_insert element
    rw [extend_snoc, Bool.or_eq_true, ih, insert_grows]
    constructor
    · rintro (hgrows | hgrows)
      · exact hbefore.trans_ssubset hgrows
      · exact hgrows.trans_subset hlast
    · intro hgrows
      by_cases hsame : (antichain.extend iterator).2.up_set = antichain.up_set
      · exact Or.inl (hsame ▸ hgrows)
      · exact Or.inr (hbefore.ssubset_of_ne (Ne.symm hsame))

/-! ### Comparing antichains -/

/-- `less_equal` of antichains is inclusion of up-sets. -/
theorem dominates_iff (antichain other : Antichain T) :
    antichain.dominates other = true ↔ other.up_set ⊆ antichain.up_set := by
  unfold dominates
  rw [List.all_eq_true]
  constructor
  · intro hall time htime
    obtain ⟨least, hleast, hle⟩ := mem_up_set.mp htime
    obtain ⟨lower, hlower, hbelow⟩ := mem_up_set.mp (hall least hleast)
    exact mem_up_set.mpr ⟨lower, hlower, hbelow.trans hle⟩
  · intro hsub element helement
    exact hsub (mem_up_set.mpr ⟨element, helement, le_rfl⟩)

/-- Lists without repetitions have the same elements if they are as long, and the elements of
    the first are also in the second. -/
theorem eq_iff_mem {antichain other : Antichain T} (h : antichain.elements.Nodup)
    (hother : other.elements.Nodup) :
    antichain.eq other = true ↔ ∀ time, time ∈ antichain.elements ↔ time ∈ other.elements := by
  unfold eq
  rw [Bool.and_eq_true, Bool.or_eq_true, decide_eq_true_eq]
  constructor
  · rintro ⟨hlength, hpositions | hsubset⟩
    · -- the fast path: the same at each position
      have hsame : antichain.elements = other.elements := by
        apply List.ext_getElem hlength
        intro index hindex hindex'
        have hmem : (antichain.elements[index], other.elements[index]) ∈
            antichain.elements.zip other.elements := by
          rw [← List.getElem_zip (h := by rw [List.length_zip]; omega)]
          exact List.getElem_mem _
        simpa using List.all_eq_true.mp hpositions _ hmem
      intro time
      rw [hsame]
    · have hsub : antichain.elements ⊆ other.elements := by
        intro time htime
        simpa using List.all_eq_true.mp hsubset time htime
      have hperm := (h.subperm hsub).perm_of_length_le (le_of_eq hlength.symm)
      exact fun time => hperm.mem_iff
  · intro hmem
    have hperm : antichain.elements.Perm other.elements := (List.perm_ext_iff_of_nodup h hother).mpr hmem
    refine ⟨hperm.length_eq, Or.inr ?_⟩
    rw [List.all_eq_true]
    intro time htime
    simpa using (hmem time).mp htime

/-- `==` is equality of up-sets. -/
theorem eq_iff_up_set {antichain other : Antichain T} {elements elements' : List T}
    (h : Built antichain elements) (hother : Built other elements') :
    antichain.eq other = true ↔ antichain.up_set = other.up_set := by
  rw [eq_iff_mem h.isFrontier.nodup hother.isFrontier.nodup]
  constructor
  · intro hmem
    ext time
    simp only [mem_up_set, hmem]
  · intro hsame time
    have hcovers : ∀ other_time, (∃ least ∈ other.elements, least ≤ other_time) ↔
        ∃ least ∈ antichain.elements, least ≤ other_time := by
      intro other_time
      rw [← mem_up_set, ← mem_up_set, hsame]
    exact h.isFrontier.up_closure.mem_congr (hother.isFrontier.up_closure.congr hcovers) time

/-- An antichain stands for all that is above what was inserted. -/
theorem Built.up_set {antichain : Antichain T} {elements : List T} (h : Built antichain elements) :
    antichain.up_set = {time | ∃ lower ∈ elements, lower ≤ time} := by
  ext time
  rw [mem_up_set]
  constructor
  · rintro ⟨least, hleast, hle⟩
    exact ⟨least, h.isFrontier.present_of_mem least hleast, hle⟩
  · rintro ⟨lower, hlower, hle⟩
    obtain ⟨least, hleast, hbelow⟩ := h.isFrontier.covers lower hlower
    exact ⟨least, hleast, hbelow.trans hle⟩

/-- The order of the insertions makes no difference. -/
theorem eq_of_perm {antichain other : Antichain T} {elements elements' : List T}
    (h : Built antichain elements) (hother : Built other elements') (hperm : elements.Perm elements') :
    antichain.eq other = true := by
  rw [eq_iff_up_set h hother, h.up_set, hother.up_set]
  ext time
  change (∃ lower ∈ elements, lower ≤ time) ↔ ∃ lower ∈ elements', lower ≤ time
  simp only [hperm.mem_iff]

/-- The laws of antichains that are built by insertions: they hold the minimal elements,
    insertions tell whether the up-set grows, permutations are equal, `less_equal` is a partial
    order with respect to `==`, and `==` is an equivalence. -/
theorem antichain_laws {first second third : Antichain T} {elements elements' elements'' : List T}
    (hfirst : Built first elements) (hsecond : Built second elements') (hthird : Built third elements'') :
    first.elements.Pairwise (fun time other => ¬ time ≤ other ∧ ¬ other ≤ time)
    ∧ (∀ time, time ∈ first.elements ↔ Minimal (· ∈ elements) time)
    ∧ (∀ element, (first.insert element).1 = true ↔ first.up_set ⊂ (first.insert element).2.up_set)
    ∧ (∀ iterator, (first.extend iterator).1 = true ↔ first.up_set ⊂ (first.extend iterator).2.up_set)
    ∧ (elements.Perm elements' → first.eq second = true)
    ∧ first.dominates first = true
    ∧ (first.dominates second = true → second.dominates third = true → first.dominates third = true)
    ∧ (first.dominates second = true ∧ second.dominates first = true ↔ first.eq second = true)
    ∧ first.eq first = true
    ∧ (first.eq second = true → second.eq first = true)
    ∧ (first.eq second = true → second.eq third = true → first.eq third = true) := by
  refine ⟨hfirst.isFrontier.incomparable, hfirst.isFrontier.mem_iff, first.insert_grows,
    first.extend_grows, eq_of_perm hfirst hsecond, ?_⟩
  simp only [dominates_iff, eq_iff_up_set hfirst hsecond, eq_iff_up_set hsecond hfirst,
    eq_iff_up_set hsecond hthird, eq_iff_up_set hfirst hthird, eq_iff_up_set hfirst hfirst]
  refine ⟨subset_rfl, fun h h' => h'.trans h, ?_, trivial, Eq.symm, Eq.trans⟩
  exact ⟨fun h => h.2.antisymm h.1, fun h => ⟨h.ge, h.le⟩⟩

theorem antichain_laws_example :
    ((from_vec [3, 5, 2]).insert 4).1 = false
    ∧ (from_vec [3, 5, 2]).eq (from_vec [2, 3, 5]) = true
    ∧ (from_vec [3, 5, 2]).elements.Pairwise fun time other : ℕ => ¬ time ≤ other ∧ ¬ other ≤ time := by
  have hlaws := antichain_laws (Built.from_vec [3, 5, 2]) (Built.from_vec [2, 3, 5])
    (Built.from_elem (0 : ℕ))
  exact ⟨by decide, hlaws.2.2.2.2.1 (by decide), hlaws.1⟩

end Antichain

end Timely
