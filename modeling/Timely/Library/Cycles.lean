/-
  Timely/Library/Cycles.lean
  ==========================
  **Elimination decides whether there is a cycle.**

  On a finite graph whose successors are all vertices, the loop `eliminate` meets
  no missing vertex and no zero, so it returns.  What it leaves in the map are
  vertices with an incoming arc from another one that it left.  Hence it leaves
  nothing exactly when the graph has no cycle.
-/
import Timely.Library.Elimination
import Mathlib.Data.Fintype.EquivFin
import Mathlib.Data.Set.Finite.Basic
import Mathlib.Logic.Relation
import Mathlib.Order.Preorder.Finite

set_option linter.unusedSectionVars false

namespace Library

variable {V : Type*} [DecidableEq V]

/-! ### Cycles of a relation -/

/-- A finite set in which everything has a predecessor holds a cycle. -/
theorem exists_cycle_of_predecessors {W : Type*} {related : W → W → Prop} {vertices : List W}
    (hsome : vertices ≠ [])
    (hpredecessor : ∀ vertex ∈ vertices, ∃ earlier ∈ vertices, related earlier vertex) :
    ∃ vertex, Relation.TransGen related vertex vertex := by
  by_contra hnone
  push Not at hnone
  -- without a cycle the paths inside the set are a well-founded order
  let inside : {vertex // vertex ∈ vertices} → {vertex // vertex ∈ vertices} → Prop :=
    fun first second => Relation.TransGen related first.1 second.1
  have htrans : IsTrans _ inside := ⟨fun _ _ _ hfirst hsecond => hfirst.trans hsecond⟩
  have hirrefl : Std.Irrefl inside := ⟨fun vertex => hnone vertex.1⟩
  have hfinite : Finite {vertex // vertex ∈ vertices} := List.finite_toSet vertices
  have hwf : WellFounded inside := Finite.wellFounded_of_trans_of_irrefl inside
  obtain ⟨first, hfirst⟩ := List.exists_mem_of_ne_nil _ hsome
  obtain ⟨least, _, hleast⟩ := hwf.has_min Set.univ ⟨⟨first, hfirst⟩, trivial⟩
  obtain ⟨earlier, hearlier, hrelated⟩ := hpredecessor least.1 least.2
  exact hleast ⟨earlier, hearlier⟩ trivial (Relation.TransGen.single hrelated)

/-- A rank that every step increases excludes cycles. -/
theorem not_cycle_of_rank {W : Type*} {related : W → W → Prop} {rank : W → ℕ}
    (hrank : ∀ {first second}, related first second → rank first < rank second) (vertex : W) :
    ¬ Relation.TransGen related vertex vertex := by
  intro hcycle
  have hincreases : ∀ {last}, Relation.TransGen related vertex last → rank vertex < rank last := by
    intro last hpath
    induction hpath with
    | single hstep => exact hrank hstep
    | tail _ hstep ih => exact ih.trans (hrank hstep)
  exact lt_irrefl _ (hincreases hcycle)

/-! ### The loop does not fail -/

section Returns

variable {arcs : List (V × V)} {observed done stack stack' pending : List V}
  {degrees degrees' : Degrees V} {successors : V → Option (List V)}

/-- Vertices that wait to be relaxed are still in the map, with what they wait for. -/
theorem Eliminating.exists_relax (h : Eliminating arcs observed done degrees stack pending)
    (hobserved : ∀ vertex ∈ pending, vertex ∈ observed) :
    ∃ degrees' stack', Library.relax pending degrees stack = some (degrees', stack') := by
  induction pending generalizing degrees stack with
  | nil => exact ⟨degrees, stack, rfl⟩
  | cons vertex pending ih =>
    have hrest : ∀ other ∈ pending, other ∈ observed :=
      fun other hother => hobserved other (List.mem_cons_of_mem _ hother)
    unfold Library.relax
    cases hlookup : degrees.lookup vertex with
    | none =>
      have hwaits : (vertex :: pending).count vertex ≠ 0 := by simp
      rcases h.seen vertex (hobserved vertex (by simp)) with hin | hin
      · exact absurd hlookup hin
      · exact absurd (h.gone vertex hin).2.2 hwaits
    | some number =>
      have hpos := (h.number vertex number hlookup).2
      rcases Nat.eq_or_lt_of_le hpos with rfl | hmore
      · exact ih (h.remove_step hlookup) hrest
      · obtain ⟨rest, rfl⟩ := Nat.exists_eq_add_of_le' hmore
        exact ih (h.relax_step hlookup) hrest

omit [DecidableEq V] in
theorem mem_of_mem_relax [DecidableEq V] {targets : List V}
    (h : relax targets degrees stack = some (degrees', stack')) {vertex : V}
    (hvertex : vertex ∈ stack') : vertex ∈ targets ∨ vertex ∈ stack := by
  induction targets generalizing degrees stack with
  | nil =>
    simp only [relax, Option.some.injEq, Prod.mk.injEq] at h
    rw [h.2]
    exact Or.inr hvertex
  | cons target targets ih =>
    unfold relax at h
    split at h
    case h_1 => cases h
    case h_2 => cases h
    case h_3 =>
      rcases ih h with hmem | hmem
      · exact Or.inl (List.mem_cons_of_mem _ hmem)
      · rcases List.mem_cons.mp hmem with rfl | hmem
        · exact Or.inl (by simp)
        · exact Or.inr hmem
    case h_4 =>
      rcases ih h with hmem | hmem
      · exact Or.inl (List.mem_cons_of_mem _ hmem)
      · exact Or.inr hmem

/-- With enough iterations the loop returns, and keeps its invariant to the end. -/
theorem Eliminating.exists_eliminate {fuel : ℕ}
    (hsuccessors : ∀ vertex targets, successors vertex = some targets →
      ∀ target, targets.count target = arcs.count (vertex, target))
    (hknown : ∀ vertex ∈ observed, (successors vertex).isSome)
    (hobserved : ∀ vertex targets, successors vertex = some targets →
      ∀ target ∈ targets, target ∈ observed)
    (h : Eliminating arcs observed done degrees stack [])
    (hstack : ∀ vertex ∈ stack, vertex ∈ observed)
    (hfuel : degrees.keys.length + stack.length ≤ fuel) :
    ∃ degrees' done', eliminate successors fuel degrees stack = some degrees' ∧
      Eliminating arcs observed done' degrees' [] [] := by
  induction fuel generalizing done degrees stack with
  | zero =>
    have hnil : stack = [] := List.eq_nil_of_length_eq_zero (by omega)
    subst hnil
    exact ⟨degrees, done, rfl, h⟩
  | succ fuel ih =>
    cases stack with
    | nil => exact ⟨degrees, done, rfl, h⟩
    | cons vertex stack =>
      obtain ⟨targets, htargets⟩ :=
        Option.isSome_iff_exists.mp (hknown vertex (hstack vertex (by simp)))
      have hpop := h.pop (hsuccessors vertex targets htargets)
      obtain ⟨degrees', stack', hrelax⟩ := hpop.exists_relax (hobserved vertex targets htargets)
      have hlength := length_relax hrelax
      have hmem : ∀ other ∈ stack', other ∈ observed := by
        intro other hother
        rcases mem_of_mem_relax hrelax hother with htarget | hold
        · exact hobserved vertex targets htargets other htarget
        · exact hstack other (List.mem_cons_of_mem _ hold)
      rw [List.length_cons] at hfuel
      obtain ⟨last, done', hrun, hlast⟩ := ih (hpop.relax hrelax) hmem (by omega)
      refine ⟨last, done', ?_, hlast⟩
      unfold eliminate
      simp only [htargets, hrelax]
      exact hrun

/-- What the loop leaves has a predecessor that it leaves too. -/
theorem Eliminating.exists_predecessor (h : Eliminating arcs observed done degrees [] [])
    (horigins : ∀ arc ∈ arcs, arc.1 ∈ observed) {vertex : V} (hvertex : vertex ∈ degrees.keys) :
    ∃ earlier ∈ degrees.keys, (earlier, vertex) ∈ arcs := by
  rw [← AList.mem_keys, ← AList.lookup_isSome] at hvertex
  obtain ⟨number, hnumber⟩ := Option.isSome_iff_exists.mp hvertex
  obtain ⟨heq, hpos⟩ := h.number vertex number hnumber
  have hincoming : 0 < incoming arcs done vertex := by
    rw [List.count_nil] at heq
    omega
  unfold incoming at hincoming
  obtain ⟨⟨earlier, last⟩, harc, hkept⟩ := List.countP_pos_iff.mp hincoming
  simp only [decide_eq_true_eq] at hkept
  obtain ⟨rfl, hnot⟩ := hkept
  refine ⟨earlier, ?_, harc⟩
  rw [← AList.mem_keys, ← AList.lookup_isSome, Option.isSome_iff_ne_none]
  rcases h.seen earlier (horigins _ harc) with hin | hin
  · exact hin
  · rw [List.append_nil] at hin
    exact absurd hin hnot

end Returns

/-! ### The decision -/

section Decides

variable {successors : V → Option (List V)} {vertices stack : List V}

/-- One vertex is a successor of another. -/
def Succeeds (successors : V → Option (List V)) (first second : V) : Prop :=
  ∃ targets, successors first = some targets ∧ second ∈ targets

theorem length_retain_nonzero_add_zeros (degrees : Degrees V) :
    degrees.retain_nonzero.keys.length + degrees.zeros.length ≤ degrees.keys.length := by
  have hdisjoint : (degrees.retain_nonzero.keys ++ degrees.zeros).Nodup := by
    refine List.nodup_append.mpr
      ⟨degrees.retain_nonzero.keys_nodup, degrees.keys_nodup.filter _, ?_⟩
    rintro vertex hkept other hzero rfl
    rw [← AList.mem_keys, ← AList.lookup_isSome, Degrees.lookup_retain_nonzero,
      if_pos (Degrees.mem_zeros.mp hzero)] at hkept
    cases hkept
  have hsubset : degrees.retain_nonzero.keys ++ degrees.zeros ⊆ degrees.keys := by
    intro vertex hvertex
    rcases List.mem_append.mp hvertex with hkept | hzero
    · rw [← AList.mem_keys, ← AList.lookup_isSome, Degrees.lookup_retain_nonzero] at hkept
      split at hkept
      · cases hkept
      · rwa [← AList.mem_keys, ← AList.lookup_isSome]
    · exact List.mem_of_mem_filter hzero
  have hlength := (hdisjoint.subperm hsubset).length_le
  rwa [List.length_append] at hlength

/-- On a graph whose successors are all vertices the loop returns, and it empties the map
    exactly when there is no cycle. -/
theorem eliminate_decides (hnodup : vertices.Nodup)
    (hvertices : ∀ vertex, (successors vertex).isSome ↔ vertex ∈ vertices)
    (hclosed : ∀ {first second}, Succeeds successors first second → second ∈ vertices)
    (hstack : stack.Perm (Degrees.load (observe successors vertices)).zeros) :
    ∃ degrees', eliminate successors (Degrees.load (observe successors vertices)).keys.length
        (Degrees.load (observe successors vertices)).retain_nonzero stack = some degrees' ∧
      (degrees'.keys.isEmpty = true ↔
        ∀ vertex, ¬ Relation.TransGen (Succeeds successors) vertex vertex) := by
  have hsuccessors : ∀ vertex targets, successors vertex = some targets →
      ∀ target, targets.count target = (arcsOf successors vertices).count (vertex, target) := by
    intro vertex targets h target
    rw [count_arcsOf hnodup ((hvertices vertex).mp (by rw [h]; rfl)), h]
    rfl
  have hobserved : ∀ vertex, vertex ∈ (observe successors vertices).map Prod.fst ↔
      vertex ∈ vertices := by
    intro vertex
    rw [mem_observe]
    refine ⟨?_, Or.inl⟩
    rintro (hmem | ⟨origin, _, htarget⟩)
    · exact hmem
    · cases htargets : successors origin with
      | none =>
        rw [htargets] at htarget
        cases htarget
      | some targets =>
        rw [htargets] at htarget
        exact hclosed ⟨targets, htargets, htarget⟩
  have hfuel : (Degrees.load (observe successors vertices)).retain_nonzero.keys.length +
      stack.length ≤ (Degrees.load (observe successors vertices)).keys.length := by
    rw [hstack.length_eq]
    exact length_retain_nonzero_add_zeros _
  have hstackObserved : ∀ vertex ∈ stack, vertex ∈ (observe successors vertices).map Prod.fst := by
    intro vertex hvertex
    have hzero := Degrees.mem_zeros.mp (hstack.mem_iff.mp hvertex)
    rw [Degrees.lookup_load] at hzero
    by_contra hnot
    rw [if_neg hnot] at hzero
    cases hzero
  obtain ⟨degrees', done, hrun, hlast⟩ :=
    (Eliminating.start (amount_observe vertices) hstack).exists_eliminate hsuccessors
      (fun vertex hvertex => (hvertices vertex).mpr ((hobserved vertex).mp hvertex))
      (fun vertex targets htargets target htarget =>
        (hobserved target).mpr (hclosed ⟨targets, htargets, htarget⟩)) hstackObserved hfuel
  have harcs : ∀ {first second : V}, (first, second) ∈ arcsOf successors vertices →
      first ∈ vertices ∧ Succeeds successors first second := by
    intro first second harc
    obtain ⟨origin, horigin, hmapped⟩ := List.mem_flatMap.mp harc
    obtain ⟨target, htarget, heq⟩ := List.mem_map.mp hmapped
    obtain ⟨rfl, rfl⟩ := Prod.mk.inj heq
    obtain ⟨targets, htargets⟩ := Option.isSome_iff_exists.mp ((hvertices origin).mpr horigin)
    rw [htargets] at htarget
    exact ⟨horigin, targets, htargets, htarget⟩
  refine ⟨degrees', hrun, ?_⟩
  constructor
  · intro hempty
    have hnone : ∀ vertex, degrees'.lookup vertex = none := by
      intro vertex
      rw [AList.lookup_eq_none, AList.mem_keys, List.isEmpty_iff.mp hempty]
      exact List.not_mem_nil
    obtain ⟨rank, _, hrank⟩ := exists_rank_of_eliminate hnodup hvertices hstack hrun hnone
    have hrises : ∀ {first second}, Succeeds successors first second → rank first < rank second := by
      rintro first second ⟨targets, htargets, htarget⟩
      exact (hrank first targets htargets second htarget).1
    exact not_cycle_of_rank hrises
  · intro hacyclic
    by_contra hleft
    rw [List.isEmpty_iff] at hleft
    have hpredecessor : ∀ vertex ∈ degrees'.keys, ∃ earlier ∈ degrees'.keys,
        Succeeds successors earlier vertex := by
      intro vertex hvertex
      obtain ⟨earlier, hearlier, harc⟩ := hlast.exists_predecessor
        (fun arc harc => (hobserved arc.1).mpr (harcs harc).1) hvertex
      exact ⟨earlier, hearlier, (harcs harc).2⟩
    obtain ⟨vertex, hcycle⟩ := exists_cycle_of_predecessors hleft hpredecessor
    exact hacyclic vertex hcycle

end Decides

end Library
