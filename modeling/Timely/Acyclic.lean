/-
  Timely/Acyclic.lean
  ===================
  **The test for cycles of default summaries**
  (`timely/src/progress/reachability.rs`, `Builder::is_acyclic`).

  Edges and default internal summaries leave timestamps as they are; a cycle of
  them lets a timestamp result in itself.  `is_acyclic` counts the incoming arcs
  of every location and eliminates locations without any.  The theorem of this
  module turns an answer `true` into a rank that every edge and every default
  summary increases.
-/
import Timely.Builder

namespace Timely

open Library

/-- An order in which the entries of a hash map may be visited. -/
structure IterationOrder (K : Type) where
  order : List K → List K
  perm : ∀ keys, (order keys).Perm keys

/-- The entries in the order in which they are listed. -/
def IterationOrder.listed {K : Type} : IterationOrder K := ⟨id, fun keys => List.Perm.refl keys⟩

namespace Builder

variable {S : Type}

/-! ### The positions of a table of ports -/

/-- The index and port of every entry of a table, in order. -/
def positions {α : Type} (table : List (List α)) : List (ℕ × ℕ) :=
  table.zipIdx.flatMap fun ports => ports.1.zipIdx.map fun entry => (ports.2, entry.2)

theorem mem_positions {α : Type} {table : List (List α)} {position : ℕ × ℕ} :
    position ∈ positions table ↔
      (table[position.1]?.bind fun ports => ports[position.2]?).isSome := by
  obtain ⟨index, port⟩ := position
  simp only [positions, List.mem_flatMap, List.mem_map, Prod.mk.injEq]
  constructor
  · rintro ⟨⟨ports, index'⟩, hports, ⟨entry, port'⟩, hentry, rfl, rfl⟩
    rw [List.mem_zipIdx_iff_getElem?] at hports hentry
    simp only at hports hentry
    rw [hports, Option.bind_some, hentry]
    rfl
  · intro h
    cases hports : table[index]? with
    | none => simp [hports] at h
    | some ports =>
      cases hentry : ports[port]? with
      | none => simp [hports, hentry] at h
      | some entry =>
        exact ⟨(ports, index), List.mem_zipIdx_iff_getElem?.mpr hports, (entry, port),
          List.mem_zipIdx_iff_getElem?.mpr hentry, rfl, rfl⟩

theorem nodup_positions {α : Type} (table : List (List α)) : (positions table).Nodup := by
  have hindices : ∀ {β : Type} (list : List β), (list.zipIdx.map Prod.snd).Nodup := by
    intro β list
    rw [List.zipIdx_map_snd]
    exact List.nodup_range'
  unfold positions
  rw [List.nodup_flatMap]
  constructor
  · intro ports _
    have hinner := hindices ports.1
    rw [List.Nodup, List.pairwise_map] at hinner ⊢
    exact hinner.imp fun hne heq => hne (Prod.mk.inj heq).2
  · have houter := hindices table
    rw [List.Nodup, List.pairwise_map] at houter
    refine houter.imp fun {first second} hne => ?_
    intro position hfirst hsecond
    obtain ⟨_, _, rfl⟩ := List.mem_map.mp hfirst
    obtain ⟨_, _, heq⟩ := List.mem_map.mp hsecond
    exact hne (Prod.mk.inj heq).1.symm

/-- Visiting a table port by port is visiting its positions. -/
theorem flatMap_positions {α β : Type} (table : List (List α)) (visit : ℕ → ℕ → α → List β) :
    (table.zipIdx.flatMap fun ports => ports.1.zipIdx.flatMap fun entry =>
      visit ports.2 entry.2 entry.1) =
    (positions table).flatMap fun position =>
      ((table[position.1]?.bind fun ports => ports[position.2]?).map
        (visit position.1 position.2)).getD [] := by
  unfold positions
  rw [List.flatMap_assoc]
  refine List.flatMap_congr fun ports hports => ?_
  rw [List.mem_zipIdx_iff_getElem?] at hports
  rw [List.flatMap_map]
  refine List.flatMap_congr fun entry hentry => ?_
  rw [List.mem_zipIdx_iff_getElem?] at hentry
  simp [hports, hentry]

/-! ### The locations of a graph -/

/-- Every location of the graph, sources first. -/
def locations (builder : Builder S) : List Location :=
  (positions builder.edges).map (fun position => Location.new_source position.1 position.2) ++
    (positions builder.nodes).map fun position => Location.new_target position.1 position.2

theorem nodup_locations (builder : Builder S) : builder.locations.Nodup := by
  unfold locations
  rw [List.nodup_append]
  refine ⟨(nodup_positions _).map ?_, (nodup_positions _).map ?_, ?_⟩
  · rintro ⟨node, port⟩ ⟨node', port'⟩ heq
    simpa [Location.new_source] using heq
  · rintro ⟨node, port⟩ ⟨node', port'⟩ heq
    simpa [Location.new_target] using heq
  · intro first hfirst second hsecond
    obtain ⟨_, _, rfl⟩ := List.mem_map.mp hfirst
    obtain ⟨_, _, rfl⟩ := List.mem_map.mp hsecond
    simp [Location.new_source, Location.new_target]

theorem mem_locations_iff (builder : Builder S) (location : Location) :
    location ∈ builder.locations ↔ builder.has_location location = true := by
  unfold locations
  rw [List.mem_append, List.mem_map, List.mem_map]
  obtain ⟨node, port⟩ := location
  cases port with
  | target port =>
    rw [show (⟨node, .target port⟩ : Location) = Location.new_target node port from rfl,
      ← summaries_of_isSome]
    constructor
    · rintro (⟨_, _, heq⟩ | ⟨position, hposition, heq⟩)
      · cases heq
      · cases heq
        exact mem_positions.mp hposition
    · intro h
      exact Or.inr ⟨(node, port), mem_positions.mpr h, rfl⟩
  | source port =>
    rw [show (⟨node, .source port⟩ : Location) = Location.new_source node port from rfl,
      ← targets_of_isSome]
    constructor
    · rintro (⟨position, hposition, heq⟩ | ⟨_, _, heq⟩)
      · cases heq
        exact mem_positions.mp hposition
      · cases heq
    · intro h
      exact Or.inl ⟨(node, port), mem_positions.mpr h, rfl⟩

/-! ### The test -/

section Test

variable [Inhabited S] [DecidableEq S]

/-- The default summaries of an antichain. -/
def default_summaries (summaries : Antichain S) : List S :=
  summaries.elements.filter fun summary => summary = default

/-- Load edges as default summaries. -/
def edge_observations (builder : Builder S) : List (Location × ℕ) :=
  builder.edges.zipIdx.flatMap fun ports => ports.1.zipIdx.flatMap fun targets =>
    (Location.new_source ports.2 targets.2, 0) ::
      targets.1.map fun target => (Location.from_target target, 1)

/-- Load default intra-node summaries. -/
def node_observations (builder : Builder S) : List (Location × ℕ) :=
  builder.nodes.zipIdx.flatMap fun summary => summary.1.zipIdx.flatMap fun outputs =>
    (Location.new_target summary.2 outputs.2, 0) ::
      outputs.1.zipIdx.flatMap fun summaries =>
        (default_summaries summaries.1).map fun _ =>
          (Location.new_source summary.2 summaries.2, 1)

def in_degree (builder : Builder S) : Degrees Location :=
  Degrees.load (builder.edge_observations ++ builder.node_observations)

/-- The locations reached from a location by an edge or a default summary; `none` where
    the tables have no such port. -/
def default_successors (builder : Builder S) (location : Location) : Option (List Location) :=
  match location.port with
  | .source port =>
    (builder.targets_of location.node port).map fun targets => targets.map Location.from_target
  | .target port =>
    (builder.summaries_of location.node port).map fun outputs =>
      outputs.zipIdx.flatMap fun summaries =>
        (default_summaries summaries.1).map fun _ => Location.new_source location.node summaries.2

/-- Tests whether the graph has no cycle of default path summaries; `none` where the test
    indexes a port that does not exist.  The worklist is popped from its end. -/
def is_acyclic (builder : Builder S) (iteration : IterationOrder Location) : Option Bool :=
  let worklist := iteration.order builder.in_degree.zeros
  (eliminate builder.default_successors builder.in_degree.keys.length
    builder.in_degree.retain_nonzero worklist.reverse).map fun in_degree => in_degree.keys.isEmpty

/-! ### The rank of an acyclic graph -/

theorem default_successors_isSome (builder : Builder S) (location : Location) :
    (builder.default_successors location).isSome ↔ builder.has_location location = true := by
  obtain ⟨node, port⟩ := location
  cases port with
  | target port =>
    rw [show (⟨node, .target port⟩ : Location) = Location.new_target node port from rfl,
      ← summaries_of_isSome]
    simp [default_successors, Location.new_target]
  | source port =>
    rw [show (⟨node, .source port⟩ : Location) = Location.new_source node port from rfl,
      ← targets_of_isSome]
    simp [default_successors, Location.new_source]

theorem mem_locations (builder : Builder S) (location : Location) :
    (builder.default_successors location).isSome ↔ location ∈ builder.locations := by
  rw [default_successors_isSome, mem_locations_iff]

/-- The two loading loops observe every location and every arc once. -/
theorem observations_eq (builder : Builder S) :
    builder.edge_observations ++ builder.node_observations =
      observe builder.default_successors builder.locations := by
  unfold edge_observations node_observations locations observe
  rw [List.flatMap_append, List.flatMap_map, List.flatMap_map]
  congr 1
  · rw [flatMap_positions builder.edges fun index output targets =>
      (Location.new_source index output, 0) ::
        targets.map fun target => (Location.from_target target, 1)]
    refine List.flatMap_congr fun position hposition => ?_
    obtain ⟨targets, htargets⟩ := Option.isSome_iff_exists.mp (mem_positions.mp hposition)
    simp [default_successors, Location.new_source, targets_of, htargets]
  · rw [flatMap_positions builder.nodes fun index input outputs =>
      (Location.new_target index input, 0) ::
        outputs.zipIdx.flatMap fun summaries =>
          (default_summaries summaries.1).map fun _ => (Location.new_source index summaries.2, 1)]
    refine List.flatMap_congr fun position hposition => ?_
    obtain ⟨outputs, houtputs⟩ := Option.isSome_iff_exists.mp (mem_positions.mp hposition)
    simp [default_successors, Location.new_target, summaries_of, houtputs, List.map_flatMap]

/-- An edge, or an internal summary that leaves timestamps as they are. -/
def DefaultArc (builder : Builder S) (first last : Location) : Prop :=
  ∃ successors, builder.default_successors first = some successors ∧ last ∈ successors

theorem defaultArc_edge {builder : Builder S} {node port : ℕ} {targets : List Target}
    {target : Target} (htargets : builder.targets_of node port = some targets)
    (htarget : target ∈ targets) :
    builder.DefaultArc (Location.new_source node port) (Location.from_target target) := by
  refine ⟨targets.map Location.from_target, ?_, List.mem_map_of_mem htarget⟩
  simp [default_successors, Location.new_source, htargets]

/-- A rank of the locations that every default arc increases, and that knows the target
    of every edge to exist. -/
structure Ranked (builder : Builder S) (rank : Location → ℕ) (bound : ℕ) : Prop where
  le_bound : ∀ location, rank location ≤ bound
  lt_of_arc : ∀ {first last}, builder.DefaultArc first last → rank first < rank last
  has_target : ∀ {first last}, builder.DefaultArc first last → builder.has_location last = true

/-- A graph that passes the test is ranked. -/
theorem ranked_of_is_acyclic {builder : Builder S} {iteration : IterationOrder Location}
    (h : builder.is_acyclic iteration = some true) : ∃ rank bound, builder.Ranked rank bound := by
  unfold is_acyclic in_degree at h
  rw [observations_eq, Option.map_eq_some_iff] at h
  obtain ⟨degrees, hrun, hempty⟩ := h
  have hstack : (iteration.order (Degrees.load
      (observe builder.default_successors builder.locations)).zeros).reverse.Perm
      (Degrees.load (observe builder.default_successors builder.locations)).zeros :=
    (List.reverse_perm _).trans (iteration.perm _)
  have hnone : ∀ location, degrees.lookup location = none := by
    intro location
    rw [AList.lookup_eq_none, AList.mem_keys, List.isEmpty_iff.mp hempty]
    exact List.not_mem_nil
  obtain ⟨rank, ⟨bound, hbound⟩, hrank⟩ :=
    exists_rank_of_eliminate builder.nodup_locations builder.mem_locations hstack hrun hnone
  refine ⟨rank, bound, hbound, ?_, ?_⟩
  · rintro first last ⟨successors, hsuccessors, hlast⟩
    exact (hrank first successors hsuccessors last hlast).1
  · rintro first last ⟨successors, hsuccessors, hlast⟩
    rw [← default_successors_isSome]
    exact (hrank first successors hsuccessors last hlast).2

end Test

/-- A step through an advancing summary is a default arc that keeps the timestamp, or it
    strictly advances it. -/
theorem Arc.default_or_lt {T : Type} [DecidableEq S] [PartialOrder T] [PathSummary S T] [AdvancingSummary S T]
    {builder : Builder S} {first last : Location} {time result : T}
    (h : Arc builder first time last result) :
    (builder.DefaultArc first last ∧ time = result) ∨ time < result := by
  cases h with
  | edge time htargets htarget =>
    exact Or.inl ⟨defaultArc_edge htargets htarget, rfl⟩
  | @summary node input output outputs antichain summary time result
      houtputs hantichain hsummary hvalue =>
    by_cases hdefault : summary = default
    · left
      subst hdefault
      rw [AdvancingSummary.results_in_default] at hvalue
      refine ⟨⟨_, by simp [default_successors, Location.new_target, houtputs]; rfl, ?_⟩,
        Option.some.inj hvalue⟩
      rw [List.mem_flatMap]
      refine ⟨(antichain, output), List.mem_zipIdx_iff_getElem?.mpr hantichain, ?_⟩
      rw [List.mem_replicate]
      have hdefaults : default ∈ default_summaries antichain :=
        List.mem_filter.mpr ⟨hsummary, by simp⟩
      exact ⟨fun hzero => by simp [List.length_eq_zero_iff.mp hzero] at hdefaults, rfl⟩
    · exact Or.inr (AdvancingSummary.lt_of_results_in hdefault hvalue)

/-- An internal connection leads to an output of its node. -/
theorem has_source_of_summary (builder : Builder S) {node input output : ℕ}
    {outputs : List (Antichain S)} {antichain : Antichain S}
    (houtputs : builder.summaries_of node input = some outputs)
    (hantichain : outputs[output]? = some antichain) :
    builder.has_location (Location.new_source node output) = true := by
  obtain ⟨inputs, hinputs, houtputsAt⟩ := Option.bind_eq_some_iff.mp houtputs
  have hlength : node < builder.shape.length := by
    rw [← builder.nodes_length]
    exact (List.getElem?_eq_some_iff.mp hinputs).1
  have hshape : builder.shape[node]? = some builder.shape[node] := List.getElem?_eq_getElem hlength
  have hports := (builder.nodes_shape node inputs _ hinputs hshape).2 outputs
    (List.mem_of_getElem? houtputsAt)
  unfold has_location Location.new_source
  simp only [hshape, decide_eq_true_eq]
  rw [← hports]
  exact (List.getElem?_eq_some_iff.mp hantichain).1

/-- Where every edge leads to an existing port every step ends at a location of the graph. -/
theorem EdgesExist.has_last {T : Type} [PathSummary S T] {builder : Builder S}
    (h : builder.EdgesExist) {first last : Location} {time result : T}
    (harc : Arc builder first time last result) : builder.has_location last = true := by
  cases harc with
  | edge _ htargets htarget => exact h.has_target htargets htarget
  | summary houtputs hantichain _ _ => exact builder.has_source_of_summary houtputs hantichain

/-- In a ranked graph every step ends at a location of the graph. -/
theorem Ranked.has_last {T : Type} [DecidableEq S] [PathSummary S T] {builder : Builder S}
    {rank : Location → ℕ} {bound : ℕ} (h : builder.Ranked rank bound) {first last : Location}
    {time result : T} (harc : Arc builder first time last result) :
    builder.has_location last = true := by
  cases harc with
  | edge time htargets htarget =>
    exact h.has_target (defaultArc_edge htargets htarget)
  | summary houtputs hantichain _ _ => exact builder.has_source_of_summary houtputs hantichain

end Builder

end Timely
