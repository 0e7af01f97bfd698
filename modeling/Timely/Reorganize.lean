/-
  Timely/Reorganize.lean
  ======================
  **When reorganizing keeps the graph.**

  Every edge at a wrapper should move to the first or to the last ghost of that
  wrapper.  `reorganize_edges` remembers only the last source seen before a
  wrapper and the last target seen after one, and uses this pair for all
  wrappers.  The edges come out right exactly when every wrapper has one edge
  in and one edge out, from one shared source and to one shared target.
-/
import Timely.SubgraphBuilder
import Mathlib.Data.List.Count
import Mathlib.Data.List.AList
import Mathlib.Data.List.Flatten

set_option linter.unusedSectionVars false

namespace Timely

open Library

namespace SubgraphBuilder

variable {O S TOuter TInner : Type}
  [PartialOrder TOuter] [DecidableLE TOuter] [DecidableEq TOuter] [Ord TOuter]
  [LinearExtension TOuter]
  [PartialOrder TInner] [DecidableLE TInner] [DecidableEq TInner] [Ord TInner]
  [LinearExtension TInner] [Refines TOuter TInner]

/-! ### The intended edges -/

/-- The first ghost of a wrapper. -/
def first_ghost (wrapper_ghost : AList fun _ : ℕ => List ℕ) (wrapper : ℕ) : ℕ :=
  ((wrapper_ghost.lookup wrapper).bind List.head?).getD wrapper

/-- The last ghost of a wrapper. -/
def last_ghost (wrapper_ghost : AList fun _ : ℕ => List ℕ) (wrapper : ℕ) : ℕ :=
  ((wrapper_ghost.lookup wrapper).bind List.getLast?).getD wrapper

/-- An edge with each wrapper end moved to a ghost of the wrapper. -/
def move_edge (wrapper_ghost : AList fun _ : ℕ => List ℕ) (edge : Source × Target) : Source × Target :=
  (if edge.1.node ∈ wrapper_ghost then ⟨last_ghost wrapper_ghost edge.1.node, 0⟩ else edge.1,
    if edge.2.node ∈ wrapper_ghost then ⟨first_ghost wrapper_ghost edge.2.node, 0⟩ else edge.2)

/-- The edges that the reachability builder should get: every edge of the scope, moved, and
    the edges between the ghosts of each wrapper. -/
def intended_edges (builder : SubgraphBuilder O S TOuter TInner) : List (Source × Target) :=
  builder.edge_stash.map (move_edge builder.wrapper_ghost) ++
    builder.wrapper_ghost.keys.flatMap fun wrapper =>
      ((builder.wrapper_ghost_edges.lookup wrapper).getD []).map ghost_edge

/-! ### What is pushed -/

/-- The edge touches a wrapper. -/
def touches (wrapper_ghost : AList fun _ : ℕ => List ℕ) (edge : Source × Target) : Bool :=
  decide (edge.2.node ∈ wrapper_ghost) || decide (edge.1.node ∈ wrapper_ghost)

/-- The source of the last edge into a wrapper. -/
def last_source (wrapper_ghost : AList fun _ : ℕ => List ℕ) (edges : List (Source × Target)) : Source :=
  (((edges.filter fun edge => decide (edge.2.node ∈ wrapper_ghost)).getLast?).map Prod.fst).getD ⟨0, 0⟩

/-- The target of the last edge out of a wrapper, edges into wrappers apart. -/
def last_target (wrapper_ghost : AList fun _ : ℕ => List ℕ) (edges : List (Source × Target)) : Target :=
  (((edges.filter fun edge => !decide (edge.2.node ∈ wrapper_ghost) &&
    decide (edge.1.node ∈ wrapper_ghost)).getLast?).map Prod.snd).getD ⟨0, 0⟩

theorem foldl_sort_edge (wrapper_ghost : AList fun _ : ℕ => List ℕ) (stash edges : List (Source × Target)) :
    edges.foldl (sort_edge wrapper_ghost) ⟨⟨0, 0⟩, ⟨0, 0⟩, stash⟩ =
      ⟨last_source wrapper_ghost edges, last_target wrapper_ghost edges,
        stash ++ edges.filter fun edge => !touches wrapper_ghost edge⟩ := by
  induction edges using List.reverseRecOn with
  | nil => simp [last_source, last_target]
  | append_singleton edges edge ih =>
    rw [List.foldl_append, ih, List.foldl_cons, List.foldl_nil]
    unfold sort_edge
    by_cases htarget : edge.2.node ∈ wrapper_ghost
    · simp [last_source, last_target, touches, htarget, List.filter_append]
    · by_cases hsource : edge.1.node ∈ wrapper_ghost
      · simp [last_source, last_target, touches, htarget, hsource, List.filter_append]
      · simp [last_source, last_target, touches, htarget, hsource, List.filter_append]

/-- The two edges that connect a wrapper's ghosts with the rest of the graph. -/
def connecting (builder : SubgraphBuilder O S TOuter TInner) (wrapper : ℕ) : List (Source × Target) :=
  [(last_source builder.wrapper_ghost builder.edge_stash, ⟨first_ghost builder.wrapper_ghost wrapper, 0⟩),
    (⟨last_ghost builder.wrapper_ghost wrapper, 0⟩,
      last_target builder.wrapper_ghost builder.edge_stash)]

/-- The table of ghost edges of a wrapper with the pairs of nodes that connect it. -/
def extended_edges (builder : SubgraphBuilder O S TOuter TInner) (wrapper : ℕ) : List (ℕ × ℕ) :=
  ((builder.wrapper_ghost_edges.lookup wrapper).getD []) ++
    [((last_source builder.wrapper_ghost builder.edge_stash).node,
        first_ghost builder.wrapper_ghost wrapper),
      (last_ghost builder.wrapper_ghost wrapper,
        (last_target builder.wrapper_ghost builder.edge_stash).node)]

/-- The chain of ghosts of every wrapper is not empty. -/
def HasGhosts (builder : SubgraphBuilder O S TOuter TInner) : Prop :=
  ∀ wrapper ghosts, builder.wrapper_ghost.lookup wrapper = some ghosts → ghosts ≠ []

theorem visit_wrappers {builder : SubgraphBuilder O S TOuter TInner} (hghosts : builder.HasGhosts)
    (sorted : Sorted)
    (hsource : sorted.start_source = last_source builder.wrapper_ghost builder.edge_stash)
    (htarget : sorted.end_target = last_target builder.wrapper_ghost builder.edge_stash)
    (wrappers : List ℕ) (hnodup : wrappers.Nodup) (hmem : ∀ wrapper ∈ wrappers,
      wrapper ∈ builder.wrapper_ghost)
    (stash : List (Source × Target)) (table : AList fun _ : ℕ => List (ℕ × ℕ))
    (htable : ∀ wrapper ∈ wrappers,
      table.lookup wrapper = builder.wrapper_ghost_edges.lookup wrapper) :
    ∃ extended, wrappers.foldlM (visit_wrapper builder.wrapper_ghost sorted) (stash, table) =
      some (stash ++ wrappers.flatMap fun wrapper => builder.connecting wrapper ++
        ((builder.wrapper_ghost_edges.lookup wrapper).getD []).map ghost_edge, extended) ∧
      (∀ wrapper ∈ wrappers, extended.lookup wrapper = some (builder.extended_edges wrapper)) ∧
      ∀ wrapper ∉ wrappers, extended.lookup wrapper = table.lookup wrapper := by
  induction wrappers generalizing stash table with
  | nil => exact ⟨table, by simp, fun _ h => absurd h List.not_mem_nil, fun _ _ => rfl⟩
  | cons wrapper wrappers ih =>
    have hwrapper := hmem wrapper List.mem_cons_self
    obtain ⟨ghosts, hlookup⟩ := Option.isSome_iff_exists.mp (AList.lookup_isSome.mpr hwrapper)
    obtain ⟨edges, hedges⟩ := Option.isSome_iff_exists.mp
      (AList.lookup_isSome.mpr (builder.registered wrapper hwrapper))
    have hnonempty := hghosts wrapper ghosts hlookup
    have hfirst : ghosts.head? = some (first_ghost builder.wrapper_ghost wrapper) := by
      simp [first_ghost, hlookup, List.head?_eq_some_head hnonempty]
    have hlast : ghosts.getLast? = some (last_ghost builder.wrapper_ghost wrapper) := by
      simp [last_ghost, hlookup, List.getLast?_eq_some_getLast hnonempty]
    have hstep : visit_wrapper builder.wrapper_ghost sorted (stash, table) wrapper =
        some (stash ++ (builder.connecting wrapper ++ edges.map ghost_edge),
          table.insert wrapper (builder.extended_edges wrapper)) := by
      unfold visit_wrapper extended_edges
      rw [hlookup, htable wrapper List.mem_cons_self, hedges]
      simp only [reorganize_wrapper, hfirst, hlast, Option.map_some, connecting, hsource, htarget,
        Option.getD_some]
    have hkept : ∀ (extension : List (ℕ × ℕ)), ∀ other ∈ wrappers,
        (table.insert wrapper extension).lookup other =
          builder.wrapper_ghost_edges.lookup other := by
      intro extension other hother
      have hne : other ≠ wrapper := fun heq => (List.nodup_cons.mp hnodup).1 (heq ▸ hother)
      rw [AList.lookup_insert_ne hne]
      exact htable other (List.mem_cons_of_mem _ hother)
    rw [List.foldlM_cons, hstep]
    obtain ⟨extended, hrest, hvisited, hothers⟩ := ih (List.nodup_cons.mp hnodup).2
      (fun other hother => hmem other (List.mem_cons_of_mem _ hother))
      (stash ++ (builder.connecting wrapper ++ edges.map ghost_edge)) _ (hkept _)
    refine ⟨extended, ?_, ?_, ?_⟩
    · rw [Option.bind_eq_bind, Option.bind_some, hrest, List.flatMap_cons, hedges, Option.getD_some,
        List.append_assoc]
    · intro other hother
      rcases List.mem_cons.mp hother with rfl | hrestMem
      · rw [hothers _ (List.nodup_cons.mp hnodup).1, AList.lookup_insert]
      · exact hvisited other hrestMem
    · intro other hother
      rw [List.mem_cons, not_or] at hother
      rw [hothers other hother.2, AList.lookup_insert_ne hother.1]

/-- The edges that `reorganize_edges` yields, up to their order. -/
theorem exists_reorganize_edges {builder : SubgraphBuilder O S TOuter TInner}
    (hghosts : builder.HasGhosts) (iteration : IterationOrder ℕ) :
    ∃ edges table, builder.reorganize_edges iteration = some (edges, table) ∧
      edges.Perm (builder.ghost_edge_stash ++
        ((builder.edge_stash.filter fun edge => !touches builder.wrapper_ghost edge) ++
          (builder.wrapper_ghost.keys.flatMap builder.connecting ++
            builder.wrapper_ghost.keys.flatMap fun wrapper =>
              ((builder.wrapper_ghost_edges.lookup wrapper).getD []).map ghost_edge))) ∧
      ∀ wrapper ∈ builder.wrapper_ghost,
        table.lookup wrapper = some (builder.extended_edges wrapper) := by
  have hperm := iteration.perm builder.wrapper_ghost.keys
  unfold reorganize_edges
  rw [foldl_sort_edge]
  obtain ⟨table, hrun, hvisited, -⟩ := visit_wrappers hghosts
    ⟨last_source builder.wrapper_ghost builder.edge_stash,
      last_target builder.wrapper_ghost builder.edge_stash, builder.ghost_edge_stash ++
        builder.edge_stash.filter fun edge => !touches builder.wrapper_ghost edge⟩ rfl rfl
    (iteration.order builder.wrapper_ghost.keys)
    (hperm.nodup_iff.mpr builder.wrapper_ghost.keys_nodup)
    (fun wrapper hwrapper => AList.mem_keys.mpr (hperm.mem_iff.mp hwrapper))
    (builder.ghost_edge_stash ++
      builder.edge_stash.filter fun edge => !touches builder.wrapper_ghost edge)
    builder.wrapper_ghost_edges (fun _ _ => rfl)
  refine ⟨_, table, hrun, ?_, fun wrapper hwrapper =>
    hvisited wrapper (hperm.mem_iff.mpr (AList.mem_keys.mp hwrapper))⟩
  rw [List.append_assoc]
  refine List.Perm.append_left _ (List.Perm.append_left _ ?_)
  refine (hperm.flatMap_right _).trans ?_
  exact List.flatMap_append_perm _ _ _ |>.symm

/-! ### Splitting the edges -/

/-- A filter for two exclusive conditions splits into the two filters. -/
theorem filter_or_perm {α : Type} {list : List α} {either : α → Bool} (first second : α → Bool)
    (heither : ∀ item ∈ list, either item = (first item || second item))
    (hexclusive : ∀ item ∈ list, first item = true → second item = false) :
    (list.filter either).Perm (list.filter first ++ list.filter second) := by
  induction list with
  | nil => exact List.Perm.refl _
  | cons item list ih =>
    have hrest := ih (fun other hother => heither other (List.mem_cons_of_mem _ hother))
      fun other hother => hexclusive other (List.mem_cons_of_mem _ hother)
    have hitem := heither item List.mem_cons_self
    rw [List.filter_cons, List.filter_cons, List.filter_cons, hitem]
    cases hfirst : first item with
    | true =>
      rw [hexclusive item List.mem_cons_self hfirst]
      exact hrest.cons item
    | false =>
      cases second item with
      | true => exact (hrest.cons item).trans List.perm_middle.symm
      | false => exact hrest

/-- Grouping the items whose key is listed by their keys. -/
theorem filter_keys_perm {α : Type} (key : α → ℕ) (list : List α) {keys : List ℕ}
    (hnodup : keys.Nodup) :
    (list.filter fun item => decide (key item ∈ keys)).Perm
      (keys.flatMap fun found => list.filter fun item => decide (key item = found)) := by
  induction keys with
  | nil => simp
  | cons found keys ih =>
    obtain ⟨hnot, hrest⟩ := List.nodup_cons.mp hnodup
    rw [List.flatMap_cons]
    refine (filter_or_perm (fun item => decide (key item = found))
      (fun item => decide (key item ∈ keys)) ?_ ?_).trans ((ih hrest).append_left _)
    · intro item _
      simp only [List.mem_cons, Bool.decide_or]
    · intro item _ hkey
      rw [decide_eq_true_eq] at hkey
      simpa [hkey] using hnot

/-- The edges of a scope, moved: those that touch no wrapper stay. -/
theorem map_move_edge_perm (wrapper_ghost : AList fun _ : ℕ => List ℕ) (edges : List (Source × Target)) :
    (edges.map (move_edge wrapper_ghost)).Perm
      ((edges.filter fun edge => !touches wrapper_ghost edge) ++
        (edges.filter (touches wrapper_ghost)).map (move_edge wrapper_ghost)) := by
  have hplain : (edges.filter fun edge => !touches wrapper_ghost edge).map (move_edge wrapper_ghost) =
      edges.filter fun edge => !touches wrapper_ghost edge := by
    rw [List.map_congr_left (g := id) fun edge hedge => ?_, List.map_id]
    have hnone := (List.mem_filter.mp hedge).2
    simp only [touches, Bool.not_eq_true', Bool.or_eq_false_iff, decide_eq_false_iff_not] at hnone
    simp [move_edge, hnone.1, hnone.2]
  have hsplit := (List.filter_append_perm (touches wrapper_ghost) edges).symm.map
    (move_edge wrapper_ghost)
  rw [List.map_append, hplain] at hsplit
  exact hsplit.trans List.perm_append_comm

/-- The reorganized edges are the intended ones exactly when the connecting edges are the moved
    edges at wrappers. -/
theorem perm_intended_iff {builder : SubgraphBuilder O S TOuter TInner} {edges : List (Source × Target)}
    (hedges : edges.Perm (builder.ghost_edge_stash ++
      ((builder.edge_stash.filter fun edge => !touches builder.wrapper_ghost edge) ++
        (builder.wrapper_ghost.keys.flatMap builder.connecting ++
          builder.wrapper_ghost.keys.flatMap fun wrapper =>
            ((builder.wrapper_ghost_edges.lookup wrapper).getD []).map ghost_edge)))) :
    edges.Perm (builder.ghost_edge_stash ++ builder.intended_edges) ↔
      (builder.wrapper_ghost.keys.flatMap builder.connecting).Perm
        ((builder.edge_stash.filter (touches builder.wrapper_ghost)).map
          (move_edge builder.wrapper_ghost)) := by
  have hintended := (map_move_edge_perm builder.wrapper_ghost builder.edge_stash).append_right
    (builder.wrapper_ghost.keys.flatMap fun wrapper =>
      ((builder.wrapper_ghost_edges.lookup wrapper).getD []).map ghost_edge)
  rw [List.append_assoc] at hintended
  have hcancel : ∀ (kept middle middle' last : List (Source × Target)),
      (kept ++ (middle ++ last)).Perm (kept ++ (middle' ++ last)) ↔ middle.Perm middle' :=
    fun kept middle middle' last =>
      (List.perm_append_left_iff kept).trans (List.perm_append_right_iff last)
  constructor
  · intro h
    exact (hcancel _ _ _ _).mp
      (((List.perm_append_left_iff _).mp (hedges.symm.trans h)).trans hintended)
  · intro h
    exact hedges.trans (List.Perm.append_left _ (((hcancel _ _ _ _).mpr h).trans hintended.symm))

/-! ### Graphs that come out right -/

/-- Every wrapper has one edge in and one edge out, all from one source and to one target,
    neither of which is a wrapper's. -/
def SharedEnds (builder : SubgraphBuilder O S TOuter TInner) : Prop :=
  ∃ source target, source.node ∉ builder.wrapper_ghost ∧ target.node ∉ builder.wrapper_ghost ∧
    ∀ wrapper ∈ builder.wrapper_ghost,
      (builder.edge_stash.filter fun edge => decide (edge.2.node = wrapper)).map Prod.fst = [source] ∧
      (builder.edge_stash.filter fun edge => decide (edge.1.node = wrapper)).map Prod.snd = [target]

/-- The ghosts are operators of their own: not the outer scope, in one chain only, and without
    streams. -/
structure GhostsApart (builder : SubgraphBuilder O S TOuter TInner) : Prop where
  ne_zero : ∀ {wrapper ghosts ghost}, builder.wrapper_ghost.lookup wrapper = some ghosts →
    ghost ∈ ghosts → ghost ≠ 0
  ne_ends : ∀ {wrapper ghosts ghost}, builder.wrapper_ghost.lookup wrapper = some ghosts →
    ghost ∈ ghosts → ∀ edge ∈ builder.edge_stash, edge.1.node ≠ ghost ∧ edge.2.node ≠ ghost
  disjoint : ∀ {wrapper wrapper' ghosts ghosts' ghost},
    builder.wrapper_ghost.lookup wrapper = some ghosts →
    builder.wrapper_ghost.lookup wrapper' = some ghosts' → ghost ∈ ghosts → ghost ∈ ghosts' →
    wrapper = wrapper'

/-- A filter that keeps one projected item keeps one item. -/
theorem filter_eq_singleton {α β : Type} {list : List α} {keep : α → Bool} {view : α → β} {value : β}
    (h : (list.filter keep).map view = [value]) :
    ∃ item ∈ list, list.filter keep = [item] ∧ keep item = true ∧ view item = value := by
  obtain ⟨item, hitem, hview⟩ := List.map_eq_singleton_iff.mp h
  have hmem := List.mem_filter.mp (hitem ▸ List.mem_singleton_self item : item ∈ list.filter keep)
  exact ⟨item, hmem.1, hitem, hmem.2, hview⟩

theorem last_source_eq {wrapper_ghost : AList fun _ : ℕ => List ℕ} {edges : List (Source × Target)}
    {source : Source} (hall : ∀ edge ∈ edges, edge.2.node ∈ wrapper_ghost → edge.1 = source)
    (hsome : ∃ edge ∈ edges, edge.2.node ∈ wrapper_ghost) : last_source wrapper_ghost edges = source := by
  obtain ⟨edge, hedge, hnode⟩ := hsome
  have hne : (edges.filter fun edge => decide (edge.2.node ∈ wrapper_ghost)) ≠ [] :=
    List.ne_nil_of_mem (List.mem_filter.mpr ⟨hedge, decide_eq_true hnode⟩)
  obtain ⟨hmem, hlast⟩ := List.mem_filter.mp (List.getLast_mem hne)
  unfold last_source
  rw [List.getLast?_eq_some_getLast hne, Option.map_some, Option.getD_some]
  exact hall _ hmem (of_decide_eq_true hlast)

theorem last_target_eq {wrapper_ghost : AList fun _ : ℕ => List ℕ} {edges : List (Source × Target)}
    {target : Target} (hall : ∀ edge ∈ edges, edge.1.node ∈ wrapper_ghost → edge.2 = target)
    (htarget : target.node ∉ wrapper_ghost) (hsome : ∃ edge ∈ edges, edge.1.node ∈ wrapper_ghost) :
    last_target wrapper_ghost edges = target := by
  obtain ⟨edge, hedge, hnode⟩ := hsome
  have hkeep : (!decide (edge.2.node ∈ wrapper_ghost) && decide (edge.1.node ∈ wrapper_ghost)) = true := by
    rw [hall edge hedge hnode]
    simp [htarget, hnode]
  have hne : (edges.filter fun edge => !decide (edge.2.node ∈ wrapper_ghost) &&
      decide (edge.1.node ∈ wrapper_ghost)) ≠ [] :=
    List.ne_nil_of_mem (List.mem_filter.mpr ⟨hedge, hkeep⟩)
  obtain ⟨hmem, hlast⟩ := List.mem_filter.mp (List.getLast_mem hne)
  unfold last_target
  rw [List.getLast?_eq_some_getLast hne, Option.map_some, Option.getD_some]
  exact hall _ hmem (of_decide_eq_true (Bool.and_eq_true_iff.mp hlast).2)

/-- With shared ends the connecting edges are the moved edges at wrappers. -/
theorem SharedEnds.perm {builder : SubgraphBuilder O S TOuter TInner} (h : builder.SharedEnds) :
    (builder.wrapper_ghost.keys.flatMap builder.connecting).Perm
      ((builder.edge_stash.filter (touches builder.wrapper_ghost)).map
        (move_edge builder.wrapper_ghost)) := by
  obtain ⟨source, target, hsource, htarget, hends⟩ := h
  have hinto : ∀ edge ∈ builder.edge_stash, edge.2.node ∈ builder.wrapper_ghost → edge.1 = source := by
    intro edge hedge hnode
    have hmem : edge.1 ∈ (builder.edge_stash.filter fun other =>
        decide (other.2.node = edge.2.node)).map Prod.fst :=
      List.mem_map_of_mem (List.mem_filter.mpr ⟨hedge, decide_eq_true rfl⟩)
    rw [(hends _ hnode).1] at hmem
    exact List.mem_singleton.mp hmem
  have hout : ∀ edge ∈ builder.edge_stash, edge.1.node ∈ builder.wrapper_ghost → edge.2 = target := by
    intro edge hedge hnode
    have hmem : edge.2 ∈ (builder.edge_stash.filter fun other =>
        decide (other.1.node = edge.1.node)).map Prod.snd :=
      List.mem_map_of_mem (List.mem_filter.mpr ⟨hedge, decide_eq_true rfl⟩)
    rw [(hends _ hnode).2] at hmem
    exact List.mem_singleton.mp hmem
  -- the edges at wrappers, grouped by wrapper: first those in, then those out
  have hsplit : (builder.edge_stash.filter (touches builder.wrapper_ghost)).Perm
      ((builder.wrapper_ghost.keys.flatMap fun wrapper =>
          builder.edge_stash.filter fun edge => decide (edge.2.node = wrapper)) ++
        builder.wrapper_ghost.keys.flatMap fun wrapper =>
          builder.edge_stash.filter fun edge => decide (edge.1.node = wrapper)) := by
    have heither : (builder.edge_stash.filter (touches builder.wrapper_ghost)).Perm
        ((builder.edge_stash.filter fun edge => decide (edge.2.node ∈ builder.wrapper_ghost.keys)) ++
          builder.edge_stash.filter fun edge => decide (edge.1.node ∈ builder.wrapper_ghost.keys)) := by
      refine filter_or_perm _ _ (fun edge _ => ?_) fun edge hedge hnode => ?_
      · rw [Bool.eq_iff_iff]
        simp [touches, AList.mem_keys]
      · rw [decide_eq_false_iff_not]
        intro hnode'
        have htargetNode : edge.2.node ∈ builder.wrapper_ghost :=
          AList.mem_keys.mpr (of_decide_eq_true hnode)
        rw [hout edge hedge (AList.mem_keys.mpr hnode')] at htargetNode
        exact htarget htargetNode
    exact heither.trans ((filter_keys_perm _ _ builder.wrapper_ghost.keys_nodup).append
      (filter_keys_perm _ _ builder.wrapper_ghost.keys_nodup))
  refine List.Perm.trans ?_ (hsplit.map _).symm
  rw [List.map_append, List.map_flatMap, List.map_flatMap]
  refine List.Perm.trans (List.Perm.of_eq ?_) (List.flatMap_append_perm _ _ _).symm
  refine List.flatMap_congr fun wrapper hwrapper => ?_
  have hwrapper' : wrapper ∈ builder.wrapper_ghost := AList.mem_keys.mpr hwrapper
  obtain ⟨entering, henterMem, henter, henterNode, henterSource⟩ := filter_eq_singleton (hends wrapper hwrapper').1
  obtain ⟨leaving, hleaveMem, hleave, hleaveNode, hleaveTarget⟩ := filter_eq_singleton (hends wrapper hwrapper').2
  rw [decide_eq_true_eq] at henterNode hleaveNode
  rw [henter, hleave]
  unfold connecting
  rw [last_source_eq hinto ⟨entering, henterMem, henterNode ▸ hwrapper'⟩,
    last_target_eq hout htarget ⟨leaving, hleaveMem, hleaveNode ▸ hwrapper'⟩]
  simp [move_edge, henterSource, henterNode, hleaveTarget, hleaveNode, hwrapper', hsource, htarget]

/-! ### No other graph comes out right -/

theorem mem_of_head?_ghosts {wrapper_ghost : AList fun _ : ℕ => List ℕ} {wrapper : ℕ} {ghosts : List ℕ}
    (hlookup : wrapper_ghost.lookup wrapper = some ghosts) (hne : ghosts ≠ []) :
    first_ghost wrapper_ghost wrapper ∈ ghosts ∧ last_ghost wrapper_ghost wrapper ∈ ghosts := by
  constructor
  · simp [first_ghost, hlookup, List.head?_eq_some_head hne]
  · simp [last_ghost, hlookup, List.getLast?_eq_some_getLast hne]

theorem last_source_mem (wrapper_ghost : AList fun _ : ℕ => List ℕ) (edges : List (Source × Target)) :
    last_source wrapper_ghost edges = ⟨0, 0⟩ ∨ ∃ edge ∈ edges, edge.1 = last_source wrapper_ghost edges := by
  unfold last_source
  cases hlast : (edges.filter fun edge => decide (edge.2.node ∈ wrapper_ghost)).getLast? with
  | none => exact Or.inl rfl
  | some edge => exact Or.inr ⟨edge, (List.mem_filter.mp (List.mem_of_getLast? hlast)).1, rfl⟩

theorem last_target_mem (wrapper_ghost : AList fun _ : ℕ => List ℕ) (edges : List (Source × Target)) :
    last_target wrapper_ghost edges = ⟨0, 0⟩ ∨ ∃ edge ∈ edges, edge.2 = last_target wrapper_ghost edges := by
  unfold last_target
  cases hlast : (edges.filter fun edge => !decide (edge.2.node ∈ wrapper_ghost) &&
      decide (edge.1.node ∈ wrapper_ghost)).getLast? with
  | none => exact Or.inl rfl
  | some edge => exact Or.inr ⟨edge, (List.mem_filter.mp (List.mem_of_getLast? hlast)).1, rfl⟩

/-- Choosing from each listed key what belongs to one of them. -/
theorem flatMap_ite {α : Type} {keys : List ℕ} (hnodup : keys.Nodup) {key : ℕ} (hkey : key ∈ keys)
    (items : List α) : (keys.flatMap fun other => if other = key then items else []) = items := by
  induction keys with
  | nil => cases hkey
  | cons first keys ih =>
    obtain ⟨hnot, hrest⟩ := List.nodup_cons.mp hnodup
    rw [List.flatMap_cons]
    by_cases hfirst : first = key
    · subst hfirst
      have hnone : (keys.flatMap fun other => if other = first then items else []) = [] := by
        rw [List.flatMap_eq_nil_iff]
        intro other hother
        rw [if_neg fun heq : other = first => hnot (heq ▸ hother)]
      rw [if_pos rfl, hnone, List.append_nil]
    · rw [if_neg hfirst, List.nil_append]
      exact ih hrest ((List.mem_cons.mp hkey).resolve_left (Ne.symm hfirst))

theorem flatMap_ite_eq {α : Type} {keys : List ℕ} (hnodup : keys.Nodup) {key : ℕ} (hkey : key ∈ keys)
    (value : α) : (keys.flatMap fun other => if other = key then [value] else []) = [value] :=
  flatMap_ite hnodup hkey [value]

section Necessary

variable {builder : SubgraphBuilder O S TOuter TInner} (hghosts : builder.HasGhosts)
  (hapart : builder.GhostsApart)

include hghosts hapart

/-- A ghost is no end of an edge, and not the outer scope. -/
theorem ghost_apart {wrapper : ℕ} (hwrapper : wrapper ∈ builder.wrapper_ghost) :
    (∀ edge ∈ builder.edge_stash, edge.1.node ≠ last_ghost builder.wrapper_ghost wrapper ∧
      edge.2.node ≠ first_ghost builder.wrapper_ghost wrapper) ∧
    last_ghost builder.wrapper_ghost wrapper ≠ 0 ∧ first_ghost builder.wrapper_ghost wrapper ≠ 0 := by
  obtain ⟨ghosts, hlookup⟩ := Option.isSome_iff_exists.mp (AList.lookup_isSome.mpr hwrapper)
  obtain ⟨hfirst, hlast⟩ := mem_of_head?_ghosts hlookup (hghosts wrapper ghosts hlookup)
  exact ⟨fun edge hedge => ⟨(hapart.ne_ends hlookup hlast edge hedge).1,
    (hapart.ne_ends hlookup hfirst edge hedge).2⟩, hapart.ne_zero hlookup hlast,
    hapart.ne_zero hlookup hfirst⟩

theorem last_source_apart {wrapper : ℕ} (hwrapper : wrapper ∈ builder.wrapper_ghost) :
    (last_source builder.wrapper_ghost builder.edge_stash).node ≠
      last_ghost builder.wrapper_ghost wrapper := by
  have hghost := ghost_apart hghosts hapart hwrapper
  rcases last_source_mem builder.wrapper_ghost builder.edge_stash with hzero | ⟨edge, hedge, hsource⟩
  · rw [hzero]
    exact Ne.symm hghost.2.1
  · rw [← hsource]
    exact (hghost.1 edge hedge).1

theorem last_target_apart {wrapper : ℕ} (hwrapper : wrapper ∈ builder.wrapper_ghost) :
    (last_target builder.wrapper_ghost builder.edge_stash).node ≠
      first_ghost builder.wrapper_ghost wrapper := by
  have hghost := ghost_apart hghosts hapart hwrapper
  rcases last_target_mem builder.wrapper_ghost builder.edge_stash with hzero | ⟨edge, hedge, htarget⟩
  · rw [hzero]
    exact Ne.symm hghost.2.2
  · rw [← htarget]
    exact (hghost.1 edge hedge).2

theorem first_ghost_injective {wrapper wrapper' : ℕ} (hwrapper : wrapper ∈ builder.wrapper_ghost)
    (hwrapper' : wrapper' ∈ builder.wrapper_ghost)
    (h : first_ghost builder.wrapper_ghost wrapper = first_ghost builder.wrapper_ghost wrapper') :
    wrapper = wrapper' := by
  obtain ⟨ghosts, hlookup⟩ := Option.isSome_iff_exists.mp (AList.lookup_isSome.mpr hwrapper)
  obtain ⟨ghosts', hlookup'⟩ := Option.isSome_iff_exists.mp (AList.lookup_isSome.mpr hwrapper')
  have hmem := (mem_of_head?_ghosts hlookup (hghosts _ _ hlookup)).1
  have hmem' := (mem_of_head?_ghosts hlookup' (hghosts _ _ hlookup')).1
  exact hapart.disjoint hlookup hlookup' hmem (h ▸ hmem')

theorem last_ghost_injective {wrapper wrapper' : ℕ} (hwrapper : wrapper ∈ builder.wrapper_ghost)
    (hwrapper' : wrapper' ∈ builder.wrapper_ghost)
    (h : last_ghost builder.wrapper_ghost wrapper = last_ghost builder.wrapper_ghost wrapper') :
    wrapper = wrapper' := by
  obtain ⟨ghosts, hlookup⟩ := Option.isSome_iff_exists.mp (AList.lookup_isSome.mpr hwrapper)
  obtain ⟨ghosts', hlookup'⟩ := Option.isSome_iff_exists.mp (AList.lookup_isSome.mpr hwrapper')
  have hmem := (mem_of_head?_ghosts hlookup (hghosts _ _ hlookup)).2
  have hmem' := (mem_of_head?_ghosts hlookup' (hghosts _ _ hlookup')).2
  exact hapart.disjoint hlookup hlookup' hmem (h ▸ hmem')

/-- Among the connecting edges one ends at the first ghost of a wrapper. -/
theorem filter_connecting_target {wrapper : ℕ} (hwrapper : wrapper ∈ builder.wrapper_ghost) :
    (builder.wrapper_ghost.keys.flatMap builder.connecting).filter
        (fun edge => decide (edge.2 = ⟨first_ghost builder.wrapper_ghost wrapper, 0⟩)) =
      [(last_source builder.wrapper_ghost builder.edge_stash,
        ⟨first_ghost builder.wrapper_ghost wrapper, 0⟩)] := by
  rw [List.filter_flatMap, ← flatMap_ite_eq builder.wrapper_ghost.keys_nodup (AList.mem_keys.mp hwrapper)]
  refine List.flatMap_congr fun other hother => ?_
  have hend : last_target builder.wrapper_ghost builder.edge_stash ≠
      ⟨first_ghost builder.wrapper_ghost wrapper, 0⟩ :=
    fun heq => last_target_apart hghosts hapart hwrapper (congrArg Target.node heq)
  by_cases hsame : other = wrapper
  · subst hsame
    simp [connecting, hend]
  · have hfirst : first_ghost builder.wrapper_ghost other ≠ first_ghost builder.wrapper_ghost wrapper :=
      fun heq => hsame (first_ghost_injective hghosts hapart (AList.mem_keys.mpr hother) hwrapper heq)
    simp [connecting, hend, hsame, hfirst]

/-- Among the connecting edges one starts at the last ghost of a wrapper. -/
theorem filter_connecting_source {wrapper : ℕ} (hwrapper : wrapper ∈ builder.wrapper_ghost) :
    (builder.wrapper_ghost.keys.flatMap builder.connecting).filter
        (fun edge => decide (edge.1 = ⟨last_ghost builder.wrapper_ghost wrapper, 0⟩)) =
      [(⟨last_ghost builder.wrapper_ghost wrapper, 0⟩,
        last_target builder.wrapper_ghost builder.edge_stash)] := by
  rw [List.filter_flatMap, ← flatMap_ite_eq builder.wrapper_ghost.keys_nodup (AList.mem_keys.mp hwrapper)]
  refine List.flatMap_congr fun other hother => ?_
  have hstart : last_source builder.wrapper_ghost builder.edge_stash ≠
      ⟨last_ghost builder.wrapper_ghost wrapper, 0⟩ :=
    fun heq => last_source_apart hghosts hapart hwrapper (congrArg Source.node heq)
  by_cases hsame : other = wrapper
  · subst hsame
    simp [connecting, hstart]
  · have hlast : last_ghost builder.wrapper_ghost other ≠ last_ghost builder.wrapper_ghost wrapper :=
      fun heq => hsame (last_ghost_injective hghosts hapart (AList.mem_keys.mpr hother) hwrapper heq)
    simp [connecting, hstart, hsame, hlast]

/-- The moved edges that end at the first ghost of a wrapper are the edges into the wrapper. -/
theorem filter_moved_target {wrapper : ℕ} (hwrapper : wrapper ∈ builder.wrapper_ghost) :
    ((builder.edge_stash.filter (touches builder.wrapper_ghost)).map
        (move_edge builder.wrapper_ghost)).filter
        (fun edge => decide (edge.2 = ⟨first_ghost builder.wrapper_ghost wrapper, 0⟩)) =
      (builder.edge_stash.filter fun edge => decide (edge.2.node = wrapper)).map
        (move_edge builder.wrapper_ghost) := by
  rw [List.filter_map, List.filter_filter]
  congr 1
  refine List.filter_congr fun edge hedge => ?_
  rw [Function.comp_apply, Bool.eq_iff_iff]
  by_cases hnode : edge.2.node = wrapper
  · simp [move_edge, touches, hnode, hwrapper]
  · have hmoved : (move_edge builder.wrapper_ghost edge).2 ≠
        ⟨first_ghost builder.wrapper_ghost wrapper, 0⟩ := by
      intro heq
      unfold move_edge at heq
      by_cases hin : edge.2.node ∈ builder.wrapper_ghost
      · simp only [if_pos hin] at heq
        exact hnode (first_ghost_injective hghosts hapart hin hwrapper (congrArg Target.node heq))
      · simp only [if_neg hin] at heq
        exact ((ghost_apart hghosts hapart hwrapper).1 edge hedge).2 (congrArg Target.node heq)
    simp [hmoved, hnode]

/-- The moved edges that start at the last ghost of a wrapper are the edges out of the wrapper. -/
theorem filter_moved_source {wrapper : ℕ} (hwrapper : wrapper ∈ builder.wrapper_ghost) :
    ((builder.edge_stash.filter (touches builder.wrapper_ghost)).map
        (move_edge builder.wrapper_ghost)).filter
        (fun edge => decide (edge.1 = ⟨last_ghost builder.wrapper_ghost wrapper, 0⟩)) =
      (builder.edge_stash.filter fun edge => decide (edge.1.node = wrapper)).map
        (move_edge builder.wrapper_ghost) := by
  rw [List.filter_map, List.filter_filter]
  congr 1
  refine List.filter_congr fun edge hedge => ?_
  rw [Function.comp_apply, Bool.eq_iff_iff]
  by_cases hnode : edge.1.node = wrapper
  · simp [move_edge, touches, hnode, hwrapper]
  · have hmoved : (move_edge builder.wrapper_ghost edge).1 ≠
        ⟨last_ghost builder.wrapper_ghost wrapper, 0⟩ := by
      intro heq
      unfold move_edge at heq
      by_cases hin : edge.1.node ∈ builder.wrapper_ghost
      · simp only [if_pos hin] at heq
        exact hnode (last_ghost_injective hghosts hapart hin hwrapper (congrArg Source.node heq))
      · simp only [if_neg hin] at heq
        exact ((ghost_apart hghosts hapart hwrapper).1 edge hedge).1 (congrArg Source.node heq)
    simp [hmoved, hnode]

/-- When the connecting edges are the moved edges at wrappers, the ends are shared. -/
theorem sharedEnds_of_perm
    (h : (builder.wrapper_ghost.keys.flatMap builder.connecting).Perm
      ((builder.edge_stash.filter (touches builder.wrapper_ghost)).map
        (move_edge builder.wrapper_ghost))) : builder.SharedEnds := by
  have hinto : ∀ wrapper ∈ builder.wrapper_ghost,
      (builder.edge_stash.filter fun edge => decide (edge.2.node = wrapper)).map Prod.fst =
        [last_source builder.wrapper_ghost builder.edge_stash] ∧
      (last_source builder.wrapper_ghost builder.edge_stash).node ∉ builder.wrapper_ghost := by
    intro wrapper hwrapper
    have hfiltered := h.filter fun edge =>
      decide (edge.2 = (⟨first_ghost builder.wrapper_ghost wrapper, 0⟩ : Target))
    rw [filter_connecting_target hghosts hapart hwrapper,
      filter_moved_target hghosts hapart hwrapper] at hfiltered
    obtain ⟨edge, _, hedge, _, hmoved⟩ := filter_eq_singleton (List.singleton_perm.mp hfiltered).symm
    have hsource := congrArg Prod.fst hmoved
    unfold move_edge at hsource
    by_cases hin : edge.1.node ∈ builder.wrapper_ghost
    · -- a moved source would be a ghost
      simp only [if_pos hin] at hsource
      exact absurd (congrArg Source.node hsource).symm (last_source_apart hghosts hapart hin)
    · simp only [if_neg hin] at hsource
      rw [hedge, List.map_singleton, hsource]
      exact ⟨rfl, hsource ▸ hin⟩
  have hout : ∀ wrapper ∈ builder.wrapper_ghost,
      (builder.edge_stash.filter fun edge => decide (edge.1.node = wrapper)).map Prod.snd =
        [last_target builder.wrapper_ghost builder.edge_stash] ∧
      (last_target builder.wrapper_ghost builder.edge_stash).node ∉ builder.wrapper_ghost := by
    intro wrapper hwrapper
    have hfiltered := h.filter fun edge =>
      decide (edge.1 = (⟨last_ghost builder.wrapper_ghost wrapper, 0⟩ : Source))
    rw [filter_connecting_source hghosts hapart hwrapper,
      filter_moved_source hghosts hapart hwrapper] at hfiltered
    obtain ⟨edge, _, hedge, _, hmoved⟩ := filter_eq_singleton (List.singleton_perm.mp hfiltered).symm
    have htarget := congrArg Prod.snd hmoved
    unfold move_edge at htarget
    by_cases hin : edge.2.node ∈ builder.wrapper_ghost
    · -- a moved target would be a ghost
      simp only [if_pos hin] at htarget
      exact absurd (congrArg Target.node htarget).symm (last_target_apart hghosts hapart hin)
    · simp only [if_neg hin] at htarget
      rw [hedge, List.map_singleton, htarget]
      exact ⟨rfl, htarget ▸ hin⟩
  by_cases hsome : ∃ wrapper, wrapper ∈ builder.wrapper_ghost
  · obtain ⟨wrapper, hwrapper⟩ := hsome
    exact ⟨_, _, (hinto wrapper hwrapper).2, (hout wrapper hwrapper).2,
      fun other hother => ⟨(hinto other hother).1, (hout other hother).1⟩⟩
  · have hnone : ∀ wrapper, wrapper ∉ builder.wrapper_ghost := fun wrapper hwrapper =>
      hsome ⟨wrapper, hwrapper⟩
    exact ⟨⟨0, 0⟩, ⟨0, 0⟩, hnone _, hnone _, fun wrapper hwrapper => absurd hwrapper (hnone wrapper)⟩

end Necessary

/-! ### The result -/

/-- Reorganizing succeeds when every wrapper has a ghost.  With shared ends it gives the
    intended edges, and for ghosts that are operators of their own it does so in no other case. -/
theorem reorganize_edges_iff (builder : SubgraphBuilder O S TOuter TInner) (hghosts : builder.HasGhosts)
    (iteration : IterationOrder ℕ) :
    ∃ edges table, builder.reorganize_edges iteration = some (edges, table) ∧
      (builder.SharedEnds → edges.Perm (builder.ghost_edge_stash ++ builder.intended_edges)) ∧
      (builder.GhostsApart → (edges.Perm (builder.ghost_edge_stash ++ builder.intended_edges) ↔
        builder.SharedEnds)) := by
  obtain ⟨edges, table, hrun, hedges, -⟩ := exists_reorganize_edges hghosts iteration
  refine ⟨edges, table, hrun, fun hshared => (perm_intended_iff hedges).mpr hshared.perm,
    fun hapart => ?_⟩
  rw [perm_intended_iff hedges]
  exact ⟨sharedEnds_of_perm hghosts hapart, SharedEnds.perm⟩

/-- One wrapper: `1 → 3 → 4`, where the wrapper `3` stands for the ghost `2`. -/
def example_wrapper : SubgraphBuilder Unit (Unsigned 64) (Unsigned 64) (Unsigned 64) :=
  (((new_from 1).add_fpga_operator 3 [2] []).connect ⟨1, 0⟩ ⟨3, 0⟩).connect ⟨3, 0⟩ ⟨4, 0⟩

theorem example_wrapper_hasGhosts : example_wrapper.HasGhosts := by
  intro wrapper ghosts hlookup
  rcases AList.mem_lookup_iff.mp hlookup with _ | ⟨_, hnil⟩
  · exact List.cons_ne_nil _ _
  · cases hnil

theorem example_wrapper_sharedEnds : example_wrapper.SharedEnds := by
  refine ⟨⟨1, 0⟩, ⟨4, 0⟩, by decide, by decide, fun wrapper hwrapper => ?_⟩
  obtain rfl : wrapper = 3 := List.mem_singleton.mp (AList.mem_keys.mp hwrapper)
  exact ⟨by decide, by decide⟩

theorem reorganize_edges_iff_example :
    ∃ edges table, example_wrapper.reorganize_edges IterationOrder.listed = some (edges, table) ∧
      edges.Perm (example_wrapper.ghost_edge_stash ++ example_wrapper.intended_edges) := by
  obtain ⟨edges, table, hrun, hshared, _⟩ :=
    reorganize_edges_iff example_wrapper example_wrapper_hasGhosts IterationOrder.listed
  exact ⟨edges, table, hrun, hshared example_wrapper_sharedEnds⟩

/-- A pipeline through two wrappers: `1 → 3 → 4 → 6 → 7`, where the wrapper `3` stands for the
    ghost `2`, and the wrapper `6` for the ghost `5`. -/
def example_pipeline : SubgraphBuilder Unit (Unsigned 64) (Unsigned 64) (Unsigned 64) :=
  (((((((new_from 1).add_fpga_operator 3 [2] []).add_fpga_operator 6 [5] []).connect ⟨1, 0⟩ ⟨3, 0⟩).connect
    ⟨3, 0⟩ ⟨4, 0⟩).connect ⟨4, 0⟩ ⟨6, 0⟩).connect ⟨6, 0⟩ ⟨7, 0⟩)

theorem example_pipeline_hasGhosts : example_pipeline.HasGhosts := by
  intro wrapper ghosts hlookup
  rcases AList.mem_lookup_iff.mp hlookup with _ | ⟨_, _ | ⟨_, hnil⟩⟩
  · exact List.cons_ne_nil _ _
  · exact List.cons_ne_nil _ _
  · cases hnil

/-- The ghost of the first wrapper is fed from `4` and feeds `7`, not `1` and `4`. -/
theorem reorganize_edges_mixes_wrappers :
    example_pipeline.HasGhosts ∧
    ∃ edges, (example_pipeline.reorganize_edges IterationOrder.listed).map Prod.fst =
        some edges ∧ (⟨4, 0⟩, ⟨2, 0⟩) ∈ edges ∧ (⟨1, 0⟩, ⟨2, 0⟩) ∉ edges ∧
      ¬ edges.Perm (example_pipeline.ghost_edge_stash ++ example_pipeline.intended_edges) :=
  ⟨example_pipeline_hasGhosts, [(⟨4, 0⟩, ⟨5, 0⟩), (⟨5, 0⟩, ⟨7, 0⟩), (⟨4, 0⟩, ⟨2, 0⟩), (⟨2, 0⟩, ⟨7, 0⟩)],
    by decide, by decide, by decide, by decide⟩

end SubgraphBuilder

end Timely
