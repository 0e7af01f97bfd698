/-
  Timely/Library/Elimination.lean
  ===============================
  **Elimination of vertices without incoming arcs.**

  The usual test for cycles keeps the number of incoming arcs of every vertex,
  removes vertices whose number is zero, and lowers the numbers of their
  successors.  `eliminate` is that loop over a map of numbers and a stack.  If
  it removes every vertex, the order of removal ranks the graph: every arc goes
  from an earlier vertex to a later one.
-/
import Mathlib.Algebra.Order.Ring.Nat
import Mathlib.Data.List.AList
import Mathlib.Data.List.Count
import Mathlib.Data.List.Induction
import Mathlib.Data.List.Nodup
import Mathlib.Tactic.Common

namespace Library

variable {V : Type*} [DecidableEq V]

/-- The number of incoming arcs of each vertex that is still present. -/
abbrev Degrees (V : Type*) := AList fun _ : V => ℕ

/-- Add to the number of a vertex, entering it when it is missing. -/
def Degrees.raise (degrees : Degrees V) (vertex : V) (amount : ℕ) : Degrees V :=
  degrees.insert vertex ((degrees.lookup vertex).getD 0 + amount)

/-- Lower the number of each listed vertex by one; a vertex that reaches zero is removed
    from the map and pushed on the stack.  A missing vertex or a zero is an error. -/
def relax : List V → Degrees V → List V → Option (Degrees V × List V)
  | [], degrees, stack => some (degrees, stack)
  | vertex :: rest, degrees, stack =>
    match degrees.lookup vertex with
    | none => none
    | some 0 => none
    | some 1 => relax rest (degrees.erase vertex) (vertex :: stack)
    | some (number + 2) => relax rest (degrees.insert vertex (number + 1)) stack

/-- Pop a vertex, relax its successors, and repeat until the stack is empty. -/
def eliminate (successors : V → Option (List V)) :
    ℕ → Degrees V → List V → Option (Degrees V)
  | _, degrees, [] => some degrees
  | 0, _, _ :: _ => none
  | fuel + 1, degrees, vertex :: stack =>
    match successors vertex with
    | none => none
    | some targets =>
      match relax targets degrees stack with
      | none => none
      | some (degrees', stack') => eliminate successors fuel degrees' stack'

/-! ### Incoming arcs from vertices not yet removed -/

/-- The number of arcs into `vertex` from vertices outside `done`. -/
def incoming (arcs : List (V × V)) (done : List V) (vertex : V) : ℕ :=
  arcs.countP fun arc => arc.2 = vertex ∧ arc.1 ∉ done

theorem incoming_nil (arcs : List (V × V)) (vertex : V) :
    incoming arcs [] vertex = (arcs.map Prod.snd).count vertex := by
  unfold incoming
  induction arcs with
  | nil => rfl
  | cons arc arcs ih =>
    by_cases h : arc.2 = vertex
    · rw [List.countP_cons_of_pos (by simpa using h), List.map_cons, h, List.count_cons_self, ih]
    · rw [List.countP_cons_of_neg (by simpa using h), List.map_cons, List.count_cons_of_ne h, ih]

/-- Removing a vertex lowers the number of incoming arcs by those it contributed. -/
theorem incoming_append {arcs : List (V × V)} {done : List V} {removed : V}
    (h : removed ∉ done) (vertex : V) :
    incoming arcs done vertex =
      incoming arcs (done ++ [removed]) vertex + arcs.count (removed, vertex) := by
  unfold incoming
  induction arcs with
  | nil => rfl
  | cons arc arcs ih =>
    obtain ⟨origin, target⟩ := arc
    rw [List.countP_cons, List.countP_cons, List.count_cons, ih]
    by_cases htarget : target = vertex
    · by_cases horigin : origin = removed
      · subst horigin htarget
        simp [h]
        omega
      · by_cases hdone : origin ∈ done
        · simp [htarget, horigin, hdone]
        · simp [htarget, horigin, hdone]
          omega
    · simp [htarget]

theorem mem_of_incoming_eq_zero {arcs : List (V × V)} {done : List V} {origin target : V}
    (h : incoming arcs done target = 0) (harc : (origin, target) ∈ arcs) : origin ∈ done := by
  unfold incoming at h
  rw [List.countP_eq_zero] at h
  have hnot := h (origin, target) harc
  simpa using hnot

/-! ### The invariant of the loop -/

/-- The numbers of the map count the arcs from vertices outside `done` and the `pending`
    relaxations; vertices that have left the map have none of either. -/
structure Eliminating (arcs : List (V × V)) (observed done : List V) (degrees : Degrees V)
    (stack pending : List V) : Prop where
  number : ∀ vertex number, degrees.lookup vertex = some number →
    number = incoming arcs done vertex + pending.count vertex ∧ 0 < number
  gone : ∀ vertex ∈ done ++ stack, degrees.lookup vertex = none ∧
    incoming arcs done vertex = 0 ∧ pending.count vertex = 0
  nodup : (done ++ stack).Nodup
  seen : ∀ vertex ∈ observed, degrees.lookup vertex ≠ none ∨ vertex ∈ done ++ stack

variable {arcs : List (V × V)} {observed done stack stack' pending : List V}
  {degrees degrees' : Degrees V}

/-- One relaxed successor. -/
theorem Eliminating.relax_step {vertex : V} {number : ℕ}
    (h : Eliminating arcs observed done degrees stack (vertex :: pending))
    (hlookup : degrees.lookup vertex = some (number + 2)) :
    Eliminating arcs observed done (degrees.insert vertex (number + 1)) stack pending where
  number other value hother := by
    by_cases heq : other = vertex
    · subst heq
      rw [AList.lookup_insert, Option.some.injEq] at hother
      have hold := (h.number _ _ hlookup).1
      rw [List.count_cons_self] at hold
      omega
    · rw [AList.lookup_insert_ne heq] at hother
      have hold := h.number _ _ hother
      rwa [List.count_cons_of_ne (Ne.symm heq)] at hold
  gone other hother := by
    have hold := h.gone other hother
    have hne : other ≠ vertex := by
      rintro rfl
      rw [hlookup] at hold
      cases hold.1
    rw [List.count_cons_of_ne (Ne.symm hne)] at hold
    rwa [AList.lookup_insert_ne hne]
  nodup := h.nodup
  seen other hother := by
    by_cases heq : other = vertex
    · subst heq
      rw [AList.lookup_insert]
      exact Or.inl (by simp)
    · rw [AList.lookup_insert_ne heq]
      exact h.seen other hother

/-- The relaxed successor that loses its last incoming arc. -/
theorem Eliminating.remove_step {vertex : V}
    (h : Eliminating arcs observed done degrees stack (vertex :: pending))
    (hlookup : degrees.lookup vertex = some 1) :
    Eliminating arcs observed done (degrees.erase vertex) (vertex :: stack) pending := by
  have hnumber := (h.number _ _ hlookup).1
  rw [List.count_cons_self] at hnumber
  have hfresh : vertex ∉ done ++ stack := by
    intro hmem
    have hgone := (h.gone vertex hmem).1
    rw [hlookup] at hgone
    cases hgone
  have hperm : (done ++ vertex :: stack).Perm (vertex :: (done ++ stack)) := List.perm_middle
  refine ⟨?_, ?_, ?_, ?_⟩
  · intro other value hother
    have hne : other ≠ vertex := by
      rintro rfl
      rw [AList.lookup_erase] at hother
      cases hother
    rw [AList.lookup_erase_ne hne] at hother
    have hold := h.number _ _ hother
    rwa [List.count_cons_of_ne (Ne.symm hne)] at hold
  · intro other hother
    rcases List.mem_cons.mp (hperm.mem_iff.mp hother) with rfl | hmem
    · exact ⟨AList.lookup_erase _ _, by omega, by omega⟩
    · have hne : other ≠ vertex := fun heq => hfresh (heq ▸ hmem)
      have hold := h.gone other hmem
      rw [List.count_cons_of_ne (Ne.symm hne)] at hold
      rwa [AList.lookup_erase_ne hne]
  · exact hperm.nodup_iff.mpr (List.nodup_cons.mpr ⟨hfresh, h.nodup⟩)
  · intro other hother
    by_cases heq : other = vertex
    · exact Or.inr (hperm.mem_iff.mpr (by simp [heq]))
    · rw [AList.lookup_erase_ne heq]
      rcases h.seen other hother with hin | hin
      · exact Or.inl hin
      · exact Or.inr (hperm.mem_iff.mpr (List.mem_cons_of_mem _ hin))

theorem Eliminating.relax (h : Eliminating arcs observed done degrees stack pending)
    (hrelax : relax pending degrees stack = some (degrees', stack')) :
    Eliminating arcs observed done degrees' stack' [] := by
  induction pending generalizing degrees stack with
  | nil =>
    simp only [Library.relax, Option.some.injEq, Prod.mk.injEq] at hrelax
    obtain ⟨rfl, rfl⟩ := hrelax
    exact h
  | cons vertex pending ih =>
    unfold Library.relax at hrelax
    split at hrelax
    case h_1 => cases hrelax
    case h_2 => cases hrelax
    case h_3 hlookup => exact ih (h.remove_step hlookup) hrelax
    case h_4 number hlookup => exact ih (h.relax_step hlookup) hrelax

/-- Popping a vertex moves its arcs from the incoming ones to the pending ones. -/
theorem Eliminating.pop {vertex : V} {targets : List V}
    (h : Eliminating arcs observed done degrees (vertex :: stack) [])
    (htargets : ∀ target, targets.count target = arcs.count (vertex, target)) :
    Eliminating arcs observed (done ++ [vertex]) degrees stack targets := by
  have happend : (done ++ [vertex]) ++ stack = done ++ vertex :: stack := by simp
  have hnew : vertex ∉ done := by
    intro hmem
    have hdisjoint := (List.nodup_append.mp h.nodup).2.2
    exact hdisjoint vertex hmem vertex (by simp) rfl
  have hsplit : ∀ other, incoming arcs done other =
      incoming arcs (done ++ [vertex]) other + targets.count other := by
    intro other
    rw [htargets]
    exact incoming_append hnew other
  refine ⟨?_, ?_, ?_, ?_⟩
  · intro other number hother
    have hold := h.number _ _ hother
    rw [hsplit, List.count_nil, Nat.add_zero] at hold
    exact hold
  · intro other hother
    rw [happend] at hother
    have hold := h.gone other hother
    rw [hsplit] at hold
    exact ⟨hold.1, by omega, by omega⟩
  · rw [happend]
    exact h.nodup
  · intro other hother
    rw [happend]
    exact h.seen other hother

/-- `order` lists vertices so that each one's predecessors come before it, and each one's
    successors were known when it was removed. -/
structure RemovalOrder (successors : V → Option (List V)) (arcs : List (V × V))
    (order : List V) : Prop where
  nodup : order.Nodup
  before : ∀ earlier vertex later, order = earlier ++ vertex :: later →
    incoming arcs earlier vertex = 0
  known : ∀ vertex ∈ order, (successors vertex).isSome

theorem RemovalOrder.append {successors : V → Option (List V)} {order : List V} {vertex : V}
    (h : RemovalOrder successors arcs order) (hnew : vertex ∉ order)
    (hincoming : incoming arcs order vertex = 0) (hknown : (successors vertex).isSome) :
    RemovalOrder successors arcs (order ++ [vertex]) where
  nodup := List.nodup_append.mpr ⟨h.nodup, List.nodup_singleton _, by
    intro other hother same hsame heq
    rw [List.mem_singleton] at hsame
    exact hnew (hsame ▸ heq ▸ hother)⟩
  before earlier other later hsplit := by
    rcases List.eq_nil_or_concat later with rfl | ⟨front, last, rfl⟩
    · have hparts := List.append_inj' hsplit rfl
      rw [List.singleton_inj] at hparts
      rw [← hparts.1, ← hparts.2]
      exact hincoming
    · have hassoc : earlier ++ other :: (front ++ [last]) = (earlier ++ other :: front) ++ [last] := by
        simp
      rw [List.concat_eq_append, hassoc] at hsplit
      exact h.before earlier other front (List.append_inj' hsplit rfl).1
  known other hother := by
    rcases List.mem_append.mp hother with hmem | hmem
    · exact h.known other hmem
    · rw [List.mem_singleton] at hmem
      rw [hmem]
      exact hknown

/-- A run of the loop that empties the map has removed every observed vertex, in an order
    that ranks the graph. -/
theorem eliminate_order {successors : V → Option (List V)} {fuel : ℕ}
    (hsuccessors : ∀ vertex targets, successors vertex = some targets →
      ∀ target, targets.count target = arcs.count (vertex, target))
    (h : Eliminating arcs observed done degrees stack [])
    (horder : RemovalOrder successors arcs done)
    (hrun : eliminate successors fuel degrees stack = some degrees')
    (hempty : ∀ vertex, degrees'.lookup vertex = none) :
    ∃ order, RemovalOrder successors arcs order ∧ ∀ vertex ∈ observed, vertex ∈ order := by
  induction fuel generalizing done degrees stack with
  | zero =>
    cases stack with
    | nil =>
      simp only [eliminate, Option.some.injEq] at hrun
      subst hrun
      refine ⟨done, horder, fun vertex hvertex => ?_⟩
      rcases h.seen vertex hvertex with hin | hin
      · exact absurd (hempty vertex) hin
      · simpa using hin
    | cons vertex stack => simp [eliminate] at hrun
  | succ fuel ih =>
    cases stack with
    | nil =>
      simp only [eliminate, Option.some.injEq] at hrun
      subst hrun
      refine ⟨done, horder, fun vertex hvertex => ?_⟩
      rcases h.seen vertex hvertex with hin | hin
      · exact absurd (hempty vertex) hin
      · simpa using hin
    | cons vertex stack =>
      unfold eliminate at hrun
      cases htargets : successors vertex with
      | none => simp [htargets] at hrun
      | some targets =>
        cases hrelax : relax targets degrees stack with
        | none => simp [htargets, hrelax] at hrun
        | some next =>
          obtain ⟨degrees'', stack''⟩ := next
          simp only [htargets, hrelax] at hrun
          have hpop := h.pop (hsuccessors vertex targets htargets)
          have hgone := h.gone vertex (by simp)
          have hnew : vertex ∉ done := by
            intro hmem
            exact (List.nodup_append.mp h.nodup).2.2 vertex hmem vertex (by simp) rfl
          exact ih (hpop.relax hrelax)
            (horder.append hnew hgone.2.1 (by rw [htargets]; rfl)) hrun

/-- An order of removal puts the origin of every arc before its target. -/
theorem RemovalOrder.idxOf_lt {successors : V → Option (List V)} {order : List V}
    (h : RemovalOrder successors arcs order) {origin target : V}
    (harc : (origin, target) ∈ arcs) (htarget : target ∈ order) :
    order.idxOf origin < order.idxOf target := by
  obtain ⟨earlier, later, hsplit⟩ := List.append_of_mem htarget
  have horigin : origin ∈ earlier :=
    mem_of_incoming_eq_zero (h.before earlier target later hsplit) harc
  have hnot : target ∉ earlier := by
    intro hmem
    have hnodup := h.nodup
    rw [hsplit] at hnodup
    exact (List.nodup_append.mp hnodup).2.2 target hmem target (by simp) rfl
  rw [hsplit, List.idxOf_append_of_mem horigin, List.idxOf_append_of_notMem hnot,
    List.idxOf_cons_self, Nat.add_zero]
  exact List.idxOf_lt_length_of_mem horigin

/-! ### Loading the numbers -/

/-- Enter each observed vertex, adding the amounts observed for it. -/
def Degrees.load (observations : List (V × ℕ)) : Degrees V :=
  observations.foldl (fun degrees entry => degrees.raise entry.1 entry.2) ∅

/-- The vertices that have no incoming arc. -/
def Degrees.zeros (degrees : Degrees V) : List V :=
  degrees.keys.filter fun vertex => degrees.lookup vertex = some 0

/-- Drop the vertices that have no incoming arc. -/
def Degrees.retain_nonzero (degrees : Degrees V) : Degrees V :=
  degrees.zeros.foldl (fun kept vertex => kept.erase vertex) degrees

/-- The total that the observations add to a vertex. -/
def amount (observations : List (V × ℕ)) (vertex : V) : ℕ :=
  ((observations.filter fun entry => entry.1 = vertex).map Prod.snd).sum

theorem Degrees.lookup_load (observations : List (V × ℕ)) (vertex : V) :
    (Degrees.load observations).lookup vertex =
      if vertex ∈ observations.map Prod.fst then some (amount observations vertex) else none := by
  induction observations using List.reverseRecOn with
  | nil => rfl
  | append_singleton observations entry ih =>
    unfold Degrees.load at ih ⊢
    rw [List.foldl_append, List.foldl_cons, List.foldl_nil]
    generalize hdegrees : List.foldl (fun (degrees : Degrees V) (entry : V × ℕ) =>
      degrees.raise entry.1 entry.2) ∅ observations = degrees at ih ⊢
    by_cases h : vertex = entry.1
    · subst h
      rw [Degrees.raise, AList.lookup_insert, if_pos (by simp), ih]
      by_cases hmem : entry.1 ∈ observations.map Prod.fst
      · rw [if_pos hmem]
        simp [amount]
      · rw [if_neg hmem]
        have hnone : observations.filter (fun other => other.1 = entry.1) = [] := by
          rw [List.filter_eq_nil_iff]
          intro other hother heq
          exact hmem (List.mem_map.mpr ⟨other, hother, by simpa using heq⟩)
        simp [amount, hnone]
    · rw [Degrees.raise, AList.lookup_insert_ne h, ih]
      have hsame : amount (observations ++ [entry]) vertex = amount observations vertex := by
        unfold amount
        rw [List.filter_append, List.filter_cons_of_neg (by simpa using Ne.symm h)]
        simp
      have hkeys : vertex ∈ (observations ++ [entry]).map Prod.fst ↔
          vertex ∈ observations.map Prod.fst := by
        simp [h]
      rw [hsame, if_congr hkeys rfl rfl]

theorem Degrees.lookup_foldl_erase (vertices : List V) (degrees : Degrees V) (vertex : V) :
    (vertices.foldl (fun (kept : Degrees V) other => kept.erase other) degrees).lookup vertex =
      if vertex ∈ vertices then none else degrees.lookup vertex := by
  induction vertices generalizing degrees with
  | nil => simp
  | cons head vertices ih =>
    rw [List.foldl_cons, ih]
    by_cases h : vertex = head
    · subst h
      simp
    · rw [AList.lookup_erase_ne h]
      simp [h]

theorem Degrees.mem_zeros {degrees : Degrees V} {vertex : V} :
    vertex ∈ degrees.zeros ↔ degrees.lookup vertex = some 0 := by
  unfold Degrees.zeros
  rw [List.mem_filter]
  constructor
  · intro h
    simpa using h.2
  · intro h
    refine ⟨?_, by simpa using h⟩
    rw [← AList.mem_keys, ← AList.lookup_isSome, h]
    rfl

theorem Degrees.lookup_retain_nonzero (degrees : Degrees V) (vertex : V) :
    degrees.retain_nonzero.lookup vertex =
      if degrees.lookup vertex = some 0 then none else degrees.lookup vertex := by
  unfold Degrees.retain_nonzero
  rw [Degrees.lookup_foldl_erase]
  simp only [Degrees.mem_zeros]

/-- The loop starts with the vertices without incoming arcs on its stack. -/
theorem Eliminating.start {observations : List (V × ℕ)}
    (hcount : ∀ vertex, amount observations vertex = (arcs.map Prod.snd).count vertex)
    (hstack : stack.Perm (Degrees.load observations).zeros) :
    Eliminating arcs (observations.map Prod.fst) []
      (Degrees.load observations).retain_nonzero stack [] := by
  have hlookup : ∀ vertex number, (Degrees.load observations).lookup vertex = some number →
      number = incoming arcs [] vertex := by
    intro vertex number h
    rw [Degrees.lookup_load] at h
    split at h
    case isTrue =>
      rw [incoming_nil, ← hcount]
      exact (Option.some.inj h).symm
    case isFalse => cases h
  refine ⟨?_, ?_, ?_, ?_⟩
  · intro vertex number h
    rw [Degrees.lookup_retain_nonzero] at h
    split at h
    case isTrue => cases h
    case isFalse hnonzero =>
      rw [List.count_nil, Nat.add_zero]
      refine ⟨hlookup vertex number h, Nat.pos_of_ne_zero ?_⟩
      rintro rfl
      exact hnonzero h
  · intro vertex hvertex
    rw [List.nil_append, hstack.mem_iff, Degrees.mem_zeros] at hvertex
    rw [Degrees.lookup_retain_nonzero, if_pos hvertex]
    exact ⟨rfl, (hlookup vertex 0 hvertex).symm, rfl⟩
  · rw [List.nil_append, hstack.nodup_iff]
    exact (Degrees.load observations).keys_nodup.filter _
  · intro vertex hvertex
    have hpresent := Degrees.lookup_load observations vertex
    rw [if_pos hvertex] at hpresent
    by_cases hzero : (Degrees.load observations).lookup vertex = some 0
    · right
      rw [List.nil_append, hstack.mem_iff, Degrees.mem_zeros]
      exact hzero
    · left
      rw [Degrees.lookup_retain_nonzero, if_neg hzero, hpresent]
      exact Option.some_ne_none _

/-! ### The loop ends -/

theorem length_relax {vertices : List V} (h : relax vertices degrees stack = some (degrees', stack')) :
    degrees'.keys.length + stack'.length = degrees.keys.length + stack.length := by
  induction vertices generalizing degrees stack with
  | nil =>
    simp only [relax, Option.some.injEq, Prod.mk.injEq] at h
    rw [h.1, h.2]
  | cons vertex vertices ih =>
    unfold relax at h
    split at h
    case h_1 => cases h
    case h_2 => cases h
    case h_3 hlookup =>
      have hmem : vertex ∈ degrees.keys := by
        rw [← AList.mem_keys, ← AList.lookup_isSome, hlookup]
        rfl
      have herase : (degrees.erase vertex).keys.length = degrees.keys.length - 1 := by
        rw [AList.keys_erase, List.length_erase_of_mem hmem]
      have hpos : 0 < degrees.keys.length := List.length_pos_of_mem hmem
      rw [ih h, herase, List.length_cons]
      omega
    case h_4 number hlookup =>
      have hmem : vertex ∈ degrees.keys := by
        rw [← AList.mem_keys, ← AList.lookup_isSome, hlookup]
        rfl
      have hinsert : (degrees.insert vertex (number + 1)).keys.length = degrees.keys.length := by
        rw [AList.keys_insert, List.length_cons, List.length_erase_of_mem hmem]
        have hpos : 0 < degrees.keys.length := List.length_pos_of_mem hmem
        omega
      rw [ih h, hinsert]

/-! ### The graph of a successor function -/

section Graph

variable (successors : V → Option (List V))

/-- The arcs that leave the listed vertices. -/
def arcsOf (vertices : List V) : List (V × V) :=
  vertices.flatMap fun vertex => ((successors vertex).getD []).map fun target => (vertex, target)

/-- What loading the listed vertices observes: each vertex, and each arc at its target. -/
def observe (vertices : List V) : List (V × ℕ) :=
  vertices.flatMap fun vertex =>
    (vertex, 0) :: ((successors vertex).getD []).map fun target => (target, 1)

variable {successors}

theorem amount_append (first second : List (V × ℕ)) (vertex : V) :
    amount (first ++ second) vertex = amount first vertex + amount second vertex := by
  simp [amount]

theorem amount_units (targets : List V) (vertex : V) :
    amount (targets.map fun target => (target, 1)) vertex = targets.count vertex := by
  induction targets with
  | nil => rfl
  | cons target targets ih =>
    rw [← List.singleton_append, List.map_append, amount_append, ih, List.count_append]
    congr 1
    by_cases h : target = vertex
    · simp [amount, h]
    · simp [amount, h]

theorem amount_observe (vertices : List V) (vertex : V) :
    amount (observe successors vertices) vertex =
      ((arcsOf successors vertices).map Prod.snd).count vertex := by
  induction vertices with
  | nil => rfl
  | cons head vertices ih =>
    have hzero : ∀ rest, amount ((head, 0) :: rest) vertex = amount rest vertex := by
      intro rest
      by_cases h : head = vertex
      · simp [amount, h]
      · simp [amount, h]
    unfold observe arcsOf at ih ⊢
    rw [List.flatMap_cons, List.flatMap_cons, amount_append, ih, List.map_append,
      List.count_append, hzero, amount_units, List.map_map]
    congr 2
    exact (List.map_id _).symm

theorem count_arcsOf {vertices : List V} (hnodup : vertices.Nodup) {origin : V}
    (horigin : origin ∈ vertices) (target : V) :
    (arcsOf successors vertices).count (origin, target) =
      ((successors origin).getD []).count target := by
  have hother : ∀ head, head ≠ origin →
      (((successors head).getD []).map fun last => (head, last)).count (origin, target) = 0 := by
    intro head hne
    rw [List.count_eq_zero]
    intro hmem
    obtain ⟨last, _, heq⟩ := List.mem_map.mp hmem
    exact hne (Prod.mk.inj heq).1
  have hsame : (((successors origin).getD []).map fun last => (origin, last)).count
      (origin, target) = ((successors origin).getD []).count target :=
    List.count_map_of_injective _ _ (fun _ _ heq => (Prod.mk.inj heq).2) _
  induction vertices with
  | nil => cases horigin
  | cons head vertices ih =>
    rw [List.nodup_cons] at hnodup
    unfold arcsOf at ih ⊢
    rw [List.flatMap_cons, List.count_append]
    rcases List.mem_cons.mp horigin with rfl | hmem
    · have hnone : (vertices.flatMap fun vertex =>
          ((successors vertex).getD []).map fun last => (vertex, last)).count (origin, target) = 0 := by
        rw [List.count_eq_zero]
        intro hin
        obtain ⟨vertex, hvertex, hin⟩ := List.mem_flatMap.mp hin
        have hne : vertex ≠ origin := fun heq => hnodup.1 (heq ▸ hvertex)
        exact List.count_eq_zero.mp (hother vertex hne) hin
      rw [hsame, hnone, Nat.add_zero]
    · have hne : head ≠ origin := fun heq => hnodup.1 (heq ▸ hmem)
      rw [hother head hne, ih hnodup.2 hmem, Nat.zero_add]

omit [DecidableEq V] in
theorem mem_observe {vertices : List V} {vertex : V} :
    vertex ∈ (observe successors vertices).map Prod.fst ↔
      vertex ∈ vertices ∨ ∃ origin ∈ vertices, vertex ∈ (successors origin).getD [] := by
  simp only [observe, List.map_flatMap, List.mem_flatMap, List.map_cons, List.mem_cons,
    List.map_map, List.mem_map, Function.comp_apply]
  constructor
  · rintro ⟨origin, horigin, rfl | ⟨target, htarget, rfl⟩⟩
    · exact Or.inl horigin
    · exact Or.inr ⟨origin, horigin, htarget⟩
  · rintro (hmem | ⟨origin, horigin, htarget⟩)
    · exact ⟨vertex, hmem, Or.inl rfl⟩
    · exact ⟨origin, horigin, Or.inr ⟨vertex, htarget, rfl⟩⟩

/-- When the loop empties the map, the graph is ranked: every successor of a vertex has a
    higher rank, and successors of its own. -/
theorem exists_rank_of_eliminate {vertices : List V} {fuel : ℕ} (hnodup : vertices.Nodup)
    (hvertices : ∀ vertex, (successors vertex).isSome ↔ vertex ∈ vertices)
    (hstack : stack.Perm (Degrees.load (observe successors vertices)).zeros)
    (hrun : eliminate successors fuel
      (Degrees.load (observe successors vertices)).retain_nonzero stack = some degrees')
    (hempty : ∀ vertex, degrees'.lookup vertex = none) :
    ∃ rank : V → ℕ, (∃ bound, ∀ vertex, rank vertex ≤ bound) ∧
      ∀ origin targets, successors origin = some targets → ∀ target ∈ targets,
        rank origin < rank target ∧ (successors target).isSome := by
  have hsuccessors : ∀ vertex targets, successors vertex = some targets →
      ∀ target, targets.count target = (arcsOf successors vertices).count (vertex, target) := by
    intro vertex targets h target
    rw [count_arcsOf hnodup ((hvertices vertex).mp (by rw [h]; rfl)), h]
    rfl
  have hnone : RemovalOrder successors (arcsOf successors vertices) [] :=
    ⟨List.nodup_nil, fun earlier vertex later h => by simp at h, fun _ h => absurd h List.not_mem_nil⟩
  obtain ⟨order, horder, hseen⟩ :=
    eliminate_order hsuccessors (Eliminating.start (amount_observe vertices) hstack) hnone hrun hempty
  refine ⟨fun vertex => order.idxOf vertex, ⟨order.length, fun _ => List.idxOf_le_length⟩, ?_⟩
  intro origin targets h target htarget
  have horigin : origin ∈ vertices := (hvertices origin).mp (by rw [h]; rfl)
  have hobserved : target ∈ order := by
    apply hseen
    rw [mem_observe]
    exact Or.inr ⟨origin, horigin, by rw [h]; exact htarget⟩
  refine ⟨horder.idxOf_lt ?_ hobserved, horder.known target hobserved⟩
  rw [← List.count_pos_iff, ← hsuccessors origin targets h]
  exact List.count_pos_iff.mpr htarget

end Graph

end Library
