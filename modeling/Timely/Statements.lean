/-
  Timely/Statements.lean
  ======================
  **What children state, and what becomes of it**
  (`timely/src/progress/subgraph.rs`).

  A child states what it has consumed, which capabilities it has gained and lost,
  and what it has produced, each by port and time.  The parent makes pointstamp
  changes of it: what has been produced is counted at each target of the output.
  Only the sums count, so a statement is a function of the sums in the batches.
  Nothing but calls of the operator and extraction changes what a child states.
-/
import Timely.Mirrored
import Timely.Ledger
import Timely.NestedFrontiers

set_option linter.unusedSectionVars false

namespace Timely

open Library

/-! ### Statements -/

/-- The changes of pointstamps that a node states, which has consumed, gained and produced as much at its
    ports. -/
def statement {T : Type} (node : ℕ) (edges : List (List Target)) (consumed internal produced : ℕ → T → ℤ)
    (key : Location × T) : ℤ :=
  (match key.1.port with
    | .target port => if key.1.node = node then -consumed port key.2 else 0
    | .source port => if key.1.node = node then internal port key.2 else 0) +
  ∑ output ∈ Finset.range edges.length,
    (((edges.getD output []).map Location.from_target).count key.1 : ℤ) * produced output key.2

/-- Nothing is stated. -/
theorem statement_zero {T : Type} (node : ℕ) (edges : List (List Target)) (key : Location × T) :
    statement node edges 0 0 0 key = 0 := by
  unfold statement
  have hsum : ∑ output ∈ Finset.range edges.length,
      (((edges.getD output []).map Location.from_target).count key.1 : ℤ) *
        (0 : ℕ → T → ℤ) output key.2 = 0 :=
    Finset.sum_eq_zero fun output _ => mul_zero _
  rw [hsum, add_zero]
  cases key.1.port with
  | target port => simp
  | source port => simp

/-- Two statements, one after the other. -/
theorem statement_add {T : Type} (node : ℕ) (edges : List (List Target))
    (consumed internal produced consumed' internal' produced' : ℕ → T → ℤ) (key : Location × T) :
    statement node edges (consumed + consumed') (internal + internal') (produced + produced') key =
      statement node edges consumed internal produced key +
        statement node edges consumed' internal' produced' key := by
  have hsum : ∑ output ∈ Finset.range edges.length,
      (((edges.getD output []).map Location.from_target).count key.1 : ℤ) *
        (produced + produced') output key.2 =
      ∑ output ∈ Finset.range edges.length,
        (((edges.getD output []).map Location.from_target).count key.1 : ℤ) * produced output key.2 +
      ∑ output ∈ Finset.range edges.length,
        (((edges.getD output []).map Location.from_target).count key.1 : ℤ) * produced' output key.2 := by
    rw [← Finset.sum_add_distrib]
    exact Finset.sum_congr rfl fun output _ => mul_add _ _ _
  unfold statement
  rw [hsum]
  cases key.1.port with
  | target port =>
    simp only [Pi.add_apply]
    split <;> ring
  | source port =>
    simp only [Pi.add_apply]
    split <;> ring

section Points

variable {T : Type} [DecidableEq T]

/-- An amount at one port and time. -/
def at_port (port : ℕ) (time : T) (amount : ℤ) : ℕ → T → ℤ := fun other later =>
  if other = port ∧ later = time then amount else 0

/-- A capability that is gained and dropped. -/
theorem at_port_add_neg (port : ℕ) (time : T) : at_port port time 1 + at_port port time (-1) = 0 := by
  funext other later
  rw [Pi.add_apply, Pi.add_apply]
  unfold at_port
  split
  · exact Int.add_right_neg 1
  · exact add_zero 0

/-- Amounts at the first port. -/
def at_first (amounts : T → ℤ) : ℕ → T → ℤ := fun port time => if port = 0 then amounts time else 0

theorem at_first_add (amounts more : T → ℤ) :
    at_first amounts + at_first more = at_first fun time => amounts time + more time := by
  funext port time
  unfold at_first
  rw [Pi.add_apply, Pi.add_apply]
  split
  · rfl
  · exact add_zero 0

theorem at_first_ite (now : T) (amount : ℤ) :
    (at_first fun time => if now = time then amount else 0) = at_port 0 now amount := by
  funext port time
  unfold at_first at_port
  rw [ite_and]
  simp only [eq_comm]

/-- What has been consumed is taken away at the input. -/
theorem statement_consumed (node : ℕ) (edges : List (List Target)) (input : ℕ) (time : T) (amount : ℤ)
    (key : Location × T) :
    statement node edges (at_port input time amount) 0 0 key =
      if key = (Location.new_target node input, time) then -amount else 0 := by
  obtain ⟨⟨other, port⟩, later⟩ := key
  unfold statement
  have hsum : ∑ output ∈ Finset.range edges.length,
      (((edges.getD output []).map Location.from_target).count (⟨other, port⟩ : Location) : ℤ) *
        (0 : ℕ → T → ℤ) output later = 0 :=
    Finset.sum_eq_zero fun output _ => mul_zero _
  rw [hsum, add_zero]
  cases port with
  | target port =>
    by_cases hnode : other = node
    · by_cases hport : port = input ∧ later = time
      · simp [at_port, hnode, hport, Location.new_target]
      · simp [at_port, hnode, hport, Location.new_target]
    · simp [hnode, Location.new_target]
  | source port =>
    simp [Location.new_target]

/-- Capabilities are counted at the output. -/
theorem statement_internal (node : ℕ) (edges : List (List Target)) (output : ℕ) (time : T) (amount : ℤ)
    (key : Location × T) :
    statement node edges 0 (at_port output time amount) 0 key =
      if key = (Location.new_source node output, time) then amount else 0 := by
  obtain ⟨⟨other, port⟩, later⟩ := key
  unfold statement
  have hsum : ∑ output ∈ Finset.range edges.length,
      (((edges.getD output []).map Location.from_target).count (⟨other, port⟩ : Location) : ℤ) *
        (0 : ℕ → T → ℤ) output later = 0 :=
    Finset.sum_eq_zero fun output _ => mul_zero _
  rw [hsum, add_zero]
  cases port with
  | target port =>
    simp [Location.new_source]
  | source port =>
    by_cases hnode : other = node
    · by_cases hport : port = output ∧ later = time
      · simp [at_port, hnode, hport, Location.new_source]
      · simp [at_port, hnode, hport, Location.new_source]
    · simp [hnode, Location.new_source]

/-- What has been produced is counted at each target of the output. -/
theorem statement_produced (node : ℕ) (edges : List (List Target)) (output : ℕ) (time : T) (amount : ℤ)
    (key : Location × T) :
    statement node edges 0 0 (at_port output time amount) key =
      (((edges.getD output []).map Location.from_target).count key.1 : ℤ) *
        if key.2 = time then amount else 0 := by
  unfold statement
  have hport : (match key.1.port with
      | .target port => if key.1.node = node then -(0 : ℕ → T → ℤ) port key.2 else 0
      | .source port => if key.1.node = node then (0 : ℕ → T → ℤ) port key.2 else 0) = 0 := by
    cases key.1.port with
    | target port => simp
    | source port => simp
  rw [hport, zero_add]
  have hothers : ∀ other ∈ Finset.range edges.length, other ≠ output →
      (((edges.getD other []).map Location.from_target).count key.1 : ℤ) *
        at_port output time amount other key.2 = 0 := by
    intro other _ hne
    unfold at_port
    rw [if_neg (fun h => hne h.1), mul_zero]
  by_cases houtput : output < edges.length
  · rw [Finset.sum_eq_single_of_mem output (Finset.mem_range.mpr houtput) hothers]
    simp [at_port]
  · have hnone : edges.getD output [] = [] := by
      rw [List.getD_eq_getElem?_getD, List.getElem?_eq_none (not_lt.mp houtput), Option.getD_none]
    rw [hnone, List.map_nil, List.count_nil]
    refine (Finset.sum_eq_zero fun other hother => hothers other hother ?_).trans (zero_mul _).symm
    rintro rfl
    exact houtput (Finset.mem_range.mp hother)

end Points

/-! ### Extraction -/

section Extraction

variable {O S T : Type} [PartialOrder T] [DecidableLE T] [DecidableEq T] [Ord T] [LinearExtension T]

/-- The sums of batches that are numbered by ports. -/
def sums (batches : List (ChangeBatch T)) (port : ℕ) (time : T) : ℤ :=
  (Subgraph.waiting batches port).value time

/-- The pointstamp changes that the parent makes of the reports of a child. -/
def PerOperatorState.statement (child : PerOperatorState O S T) (key : Location × T) : ℤ :=
  Timely.statement child.index child.ghost_edges (sums child.shared_progress.consumeds)
    (sums child.shared_progress.internals) (sums child.shared_progress.produceds) key

/-- Draining batches adds what they sum up to at a key, each weighed by a factor. -/
theorem value_drain_all {batches : List (ChangeBatch T)}
    {act : ℕ → T × ℤ → Extraction T → Option (Extraction T)} {start last : Extraction T}
    (key : Location × T) (factor : ℕ → ℤ)
    (hact : ∀ {index change before after}, act index change before = some after →
      after.1.value key = before.1.value key + factor index * if change.1 = key.2 then change.2 else 0)
    (h : drain_all batches act start = some last) :
    last.1.value key = start.1.value key +
      ∑ index ∈ Finset.range batches.length, factor index * sums batches index key.2 := by
  have hfold : ∀ (updates : List (ℕ × T × ℤ)) (before : Extraction T),
      updates.foldlM (fun state change => act change.1 change.2 state) before = some last →
      last.1.value key = before.1.value key + (updates.map fun update =>
        factor update.1 * if update.2.1 = key.2 then update.2.2 else 0).sum := by
    intro updates
    induction updates with
    | nil =>
      intro before hrun
      cases hrun
      exact (add_zero _).symm
    | cons update updates ih =>
      intro before hrun
      obtain ⟨middle, hmiddle, hrest⟩ := foldlM_cons_cases hrun
      rw [ih middle hrest, hact hmiddle, List.map_cons, List.sum_cons, add_assoc]
  rw [hfold _ _ h]
  congr 1
  -- the updates of each batch sum up to its value
  have hnumbered : ∀ (rest : List (ChangeBatch T)) (first : ℕ),
      (((rest.zipIdx first).flatMap fun batch => batch.1.drain.1.map fun change =>
        (batch.2, change)).map fun update : ℕ × T × ℤ =>
          factor update.1 * if update.2.1 = key.2 then update.2.2 else 0).sum =
      ∑ index ∈ Finset.range rest.length, factor (first + index) * sums rest index key.2 := by
    intro rest
    induction rest with
    | nil => intro first; rfl
    | cons batch rest ih =>
      intro first
      rw [List.zipIdx_cons, List.flatMap_cons, List.map_append, List.sum_append, ih, List.length_cons,
        Finset.sum_range_succ', add_comm]
      congr 1
      · refine Finset.sum_congr rfl fun index _ => ?_
        rw [Nat.add_assoc, Nat.add_comm 1 index]
        rfl
      · rw [List.map_map, Nat.add_zero]
        change ((batch.drain.1).map fun change : T × ℤ =>
          factor first * if change.1 = key.2 then change.2 else 0).sum = factor first * batch.value key.2
        rw [List.sum_map_mul_left, ← ChangeBatch.value_compact]
        congr 1
        unfold ChangeBatch.value tally weigh
        exact congrArg List.sum (List.map_congr_left fun change _ => by simp)
  rw [hnumbered batches 0]
  exact Finset.sum_congr rfl fun index _ => by rw [Nat.zero_add]

/-- No batch, nothing in it. -/
theorem sums_eq_zero {batches : List (ChangeBatch T)} {port : ℕ} (h : batches.length ≤ port) (time : T) :
    sums batches port time = 0 := by
  unfold sums Subgraph.waiting
  rw [List.getElem?_eq_none h]
  exact ChangeBatch.value_new time

/-- Of the batches of the ports of a node, a location concerns at most one. -/
theorem sum_factor {batches : List (ChangeBatch T)} {locate : ℕ → Location} {location : Location}
    (port : ℕ) (hlocate : ∀ other, location = locate other ↔ other = port) (sign : ℤ) (time : T) :
    ∑ index ∈ Finset.range batches.length, (if location = locate index then sign else 0) *
      sums batches index time = sign * sums batches port time := by
  have hothers : ∀ other ∈ Finset.range batches.length, other ≠ port →
      (if location = locate other then sign else 0) * sums batches other time = 0 := by
    intro other _ hne
    rw [if_neg (fun h => hne ((hlocate other).mp h)), zero_mul]
  by_cases hport : port < batches.length
  · rw [Finset.sum_eq_single_of_mem port (Finset.mem_range.mpr hport) hothers,
      if_pos ((hlocate port).mpr rfl)]
  · rw [sums_eq_zero (not_lt.mp hport), mul_zero]
    refine Finset.sum_eq_zero fun other hother => hothers other hother ?_
    rintro rfl
    exact hport (Finset.mem_range.mp hother)

theorem sum_no_factor {batches : List (ChangeBatch T)} {locate : ℕ → Location} {location : Location}
    (hlocate : ∀ other, location ≠ locate other) (sign : ℤ) (time : T) :
    ∑ index ∈ Finset.range batches.length, (if location = locate index then sign else 0) *
      sums batches index time = 0 :=
  Finset.sum_eq_zero fun other _ => by rw [if_neg (hlocate other), zero_mul]

/-- Only outputs that have both edges and a batch matter. -/
theorem sum_produced (edges : List (List Target)) (batches : List (ChangeBatch T)) (key : Location × T) :
    ∑ index ∈ Finset.range batches.length,
      (((edges.getD index []).map Location.from_target).count key.1 : ℤ) * sums batches index key.2 =
    ∑ output ∈ Finset.range edges.length,
      (((edges.getD output []).map Location.from_target).count key.1 : ℤ) * sums batches output key.2 := by
  have hextend : ∀ (count : ℕ), count = batches.length ∨ count = edges.length →
      ∑ index ∈ Finset.range count, (((edges.getD index []).map Location.from_target).count key.1 : ℤ) *
        sums batches index key.2 =
      ∑ index ∈ Finset.range (max batches.length edges.length),
        (((edges.getD index []).map Location.from_target).count key.1 : ℤ) * sums batches index key.2 := by
    intro count hcount
    refine Finset.sum_subset (Finset.range_subset_range.mpr (by omega)) fun index _ hindex => ?_
    have hle : count ≤ index := not_lt.mp fun hlt => hindex (Finset.mem_range.mpr hlt)
    rcases hcount with rfl | rfl
    · rw [sums_eq_zero hle, mul_zero]
    · rw [List.getD_eq_getElem?_getD, List.getElem?_eq_none hle, Option.getD_none, List.map_nil,
        List.count_nil, Nat.cast_zero, zero_mul]
  rw [hextend _ (Or.inl rfl), hextend _ (Or.inr rfl)]

theorem value_extract_consumed {node input : ℕ} {change : T × ℤ} {before after : Extraction T}
    (h : extract_consumed node input change before = some after) (key : Location × T) :
    after.1.value key = before.1.value key +
      (if key.1 = Location.new_target node input then -1 else 0) *
        if change.1 = key.2 then change.2 else 0 := by
  cases h
  rw [ChangeBatch.value_update]
  congr 1
  obtain ⟨location, time⟩ := key
  by_cases hlocation : location = Location.new_target node input
  · subst hlocation
    by_cases htime : change.1 = time
    · simp [htime]
    · simp [htime]
  · simp [hlocation, Ne.symm hlocation]

theorem value_extract_internal {node output : ℕ} {change : T × ℤ} {before after : Extraction T}
    (h : extract_internal node output change before = some after) (key : Location × T) :
    after.1.value key = before.1.value key +
      (if key.1 = Location.new_source node output then 1 else 0) *
        if change.1 = key.2 then change.2 else 0 := by
  cases h
  rw [ChangeBatch.value_update]
  congr 1
  obtain ⟨location, time⟩ := key
  by_cases hlocation : location = Location.new_source node output
  · subst hlocation
    by_cases htime : change.1 = time
    · simp [htime]
    · simp [htime]
  · simp [hlocation, Ne.symm hlocation]

theorem value_extract_produced {edges ghost_edges : List (List Target)} {output : ℕ} {change : T × ℤ}
    {before after : Extraction T} (h : extract_produced edges ghost_edges output change before = some after)
    (key : Location × T) :
    after.1.value key = before.1.value key +
      (((ghost_edges.getD output []).map Location.from_target).count key.1 : ℤ) *
        if change.1 = key.2 then change.2 else 0 := by
  unfold extract_produced at h
  split at h
  case h_2 => cases h
  case h_1 targets ghost_targets _ hghosts =>
    cases h
    rw [List.getD_eq_getElem?_getD, hghosts, Option.getD_some]
    obtain ⟨location, time⟩ := key
    change (ghost_targets.foldl (fun kept target =>
      kept.update (Location.from_target target, change.1) change.2) before.1).value (location, time) = _
    generalize before.1 = kept
    clear hghosts
    induction ghost_targets generalizing kept with
    | nil => simp
    | cons target rest ih =>
      rw [List.foldl_cons, ih, ChangeBatch.value_update, List.map_cons, List.count_cons, add_assoc]
      congr 1
      by_cases hlocation : Location.from_target target = location
      · by_cases htime : change.1 = time
        · simp only [hlocation, htime, if_true, beq_self_eq_true]
          push_cast
          ring
        · simp [htime]
      · simp [hlocation]

/-- Extracting what a child states adds it to the pointstamp changes, and leaves nothing stated. -/
theorem value_extract_progress {child extracted : PerOperatorState O S T}
    {wrapper_ghost : AList fun _ : ℕ => List ℕ} {wrapper_ghost_edges : AList fun _ : ℕ => List (ℕ × ℕ)}
    {before after : Extraction T} (hplain : wrapper_ghost.lookup child.index = none)
    (h : child.extract_progress wrapper_ghost wrapper_ghost_edges before = some (extracted, after)) :
    (∀ key, after.1.value key = before.1.value key + child.statement key) ∧
      extracted = { child with
        shared_progress :=
          { child.shared_progress with
            consumeds := drained child.shared_progress.consumeds
            internals := drained child.shared_progress.internals
            produceds := drained child.shared_progress.produceds } } := by
  unfold PerOperatorState.extract_progress extract_wrapper at h
  rw [hplain] at h
  obtain ⟨extraction, hextraction, heq⟩ := Option.map_eq_some_iff.mp h
  obtain ⟨rfl, rfl⟩ := Prod.mk.inj heq
  obtain ⟨middle, hmiddle, hproduced⟩ := Option.bind_eq_some_iff.mp hextraction
  obtain ⟨first, hconsumed, hinternal⟩ := Option.bind_eq_some_iff.mp hmiddle
  refine ⟨fun key => ?_, rfl⟩
  have hfirst := value_drain_all key (fun index =>
    if key.1 = Location.new_target child.index index then -1 else 0)
    (fun hact => value_extract_consumed hact key) hconsumed
  have hsecond := value_drain_all key (fun index =>
    if key.1 = Location.new_source child.index index then 1 else 0)
    (fun hact => value_extract_internal hact key) hinternal
  have hthird := value_drain_all key (fun index =>
    (((child.ghost_edges.getD index []).map Location.from_target).count key.1 : ℤ))
    (fun hact => value_extract_produced hact key) hproduced
  rw [sum_produced] at hthird
  rw [hthird, hsecond, hfirst]
  unfold PerOperatorState.statement statement
  rw [add_assoc, add_assoc, add_right_inj, ← add_assoc, add_left_inj]
  obtain ⟨⟨node, port⟩, time⟩ := key
  cases port with
  | target port =>
    have hsources : ∀ other, (⟨node, .target port⟩ : Location) ≠ Location.new_source child.index other := by
      intro other hother
      cases (Location.mk.inj hother).2
    dsimp only
    rw [sum_no_factor hsources, add_zero]
    by_cases hnode : node = child.index
    · rw [sum_factor port (fun other => ?_), if_pos hnode, neg_one_mul]
      simp [Location.new_target, hnode, eq_comm]
    · rw [sum_no_factor (fun other hother => hnode (congrArg Location.node hother)), if_neg hnode]
  | source port =>
    have htargets : ∀ other, (⟨node, .source port⟩ : Location) ≠ Location.new_target child.index other := by
      intro other hother
      cases (Location.mk.inj hother).2
    dsimp only
    rw [sum_no_factor htargets, zero_add]
    by_cases hnode : node = child.index
    · rw [sum_factor port (fun other => ?_), if_pos hnode, one_mul]
      simp [Location.new_source, hnode, eq_comm]
    · rw [sum_no_factor (fun other hother => hnode (congrArg Location.node hother)), if_neg hnode]

end Extraction

/-! ### What leaves statements alone -/

/-- A child without the frontier changes that wait for it. -/
def PerOperatorState.stated {O S T : Type} [Ord T] (child : PerOperatorState O S T) :
    PerOperatorState O S T :=
  { child with
    shared_progress := { child.shared_progress with frontiers := [], wrapper_frontiers := ∅ } }

namespace Subgraph

variable {O S TOuter TInner : Type}
  [PartialOrder TOuter] [DecidableLE TOuter] [DecidableEq TOuter] [Ord TOuter]
  [LinearExtension TOuter]
  [PartialOrder TInner] [DecidableLE TInner] [DecidableEq TInner] [Ord TInner]
  [LinearExtension TInner] [Refines TOuter TInner]

/-- What all children state. -/
def all_stated (subgraph : Subgraph O S TOuter TInner) : List (PerOperatorState O S TInner) :=
  subgraph.children.map PerOperatorState.stated

theorem stated_push_frontier {port : ℕ} {time : TInner} {diff : ℤ}
    {child changed : PerOperatorState O S TInner} (h : push_frontier port time diff child = some changed) :
    changed.stated = child.stated := by
  obtain ⟨frontiers, _, rfl⟩ := Option.map_eq_some_iff.mp h
  rfl

theorem stated_push_wrapper_frontier {ghost port : ℕ} {time : TInner} {diff : ℤ}
    {child changed : PerOperatorState O S TInner}
    (h : push_wrapper_frontier ghost port time diff child = some changed) :
    changed.stated = child.stated := by
  unfold push_wrapper_frontier at h
  split at h
  case h_1 => cases h
  case h_2 =>
    obtain ⟨frontiers, _, rfl⟩ := Option.map_eq_some_iff.mp h
    rfl

/-- Children that state the same, and nothing new in the local updates. -/
structure SameStatements (subgraph after : Subgraph O S TOuter TInner) : Prop where
  children : after.all_stated = subgraph.all_stated
  locals : after.local_pointstamp = subgraph.local_pointstamp
  input_messages : after.input_messages = subgraph.input_messages

theorem SameStatements.refl (subgraph : Subgraph O S TOuter TInner) : SameStatements subgraph subgraph :=
  ⟨rfl, rfl, rfl⟩

theorem SameStatements.trans {first second third : Subgraph O S TOuter TInner}
    (h : SameStatements first second) (h' : SameStatements second third) : SameStatements first third :=
  ⟨h'.children.trans h.children, h'.locals.trans h.locals, h'.input_messages.trans h.input_messages⟩

theorem sameStatements_modify_child {subgraph after : Subgraph O S TOuter TInner} {index : ℕ}
    {change : PerOperatorState O S TInner → Option (PerOperatorState O S TInner)}
    (hchange : ∀ {child changed}, change child = some changed → changed.stated = child.stated)
    (h : subgraph.modify_child index change = some after) : SameStatements subgraph after := by
  obtain ⟨child, changed, hchild, hchanged, rfl⟩ := modify_child_cases h
  exact ⟨map_set_of_eq hchild (hchange hchanged), rfl, rfl⟩

theorem sameStatements_commit_pointstamp {subgraph after : Subgraph O S TOuter TInner}
    {change : (Location × TInner) × ℤ} (h : subgraph.commit_pointstamp change = some after) :
    SameStatements subgraph after := by
  obtain ⟨⟨location, time⟩, delta⟩ := change
  simp only [commit_pointstamp] at h
  split at h
  · split at h
    all_goals
      obtain ⟨batches, _, rfl⟩ := Option.map_eq_some_iff.mp h
      exact ⟨rfl, rfl, rfl⟩
  · cases h
    exact ⟨rfl, rfl, rfl⟩

theorem sameStatements_deliver_change {state next : Subgraph O S TOuter TInner × Bool}
    {change : (Location × TInner) × ℤ} (h : deliver_change state change = some next) :
    SameStatements state.1 next.1 := by
  obtain ⟨⟨⟨node, port⟩, time⟩, diff⟩ := change
  cases port with
  | source port =>
    cases h
    exact SameStatements.refl _
  | target port =>
    simp only [deliver_change] at h
    split at h
    case h_1 => cases h
    case h_2 child hchild =>
      -- the activations that come with a change state nothing
      have hactive : ∀ active, SameStatements state.1 { state.1 with temp_active := active } :=
        fun _ => ⟨rfl, rfl, rfl⟩
      split at h
      case h_1 wrapper _ =>
        obtain ⟨changed, hmodified, rfl⟩ := Option.map_eq_some_iff.mp h
        exact (hactive _).trans (sameStatements_modify_child stated_push_wrapper_frontier hmodified)
      case h_2 =>
        obtain ⟨changed, hmodified, rfl⟩ := Option.map_eq_some_iff.mp h
        exact (hactive _).trans (sameStatements_modify_child stated_push_frontier hmodified)

theorem sameStatements_report_output {subgraph after : Subgraph O S TOuter TInner} {output : ℕ}
    (h : subgraph.report_output output = some after) : SameStatements subgraph after := by
  unfold report_output at h
  split at h
  case h_1 =>
    cases h
    exact ⟨rfl, rfl, rfl⟩
  case h_2 => cases h

/-- Propagating changes nothing of the children but their frontiers. -/
theorem Propagates.sameStatements [PathSummary S TInner] {subgraph after : Subgraph O S TOuter TInner}
    (h : subgraph.Propagates after) : SameStatements subgraph after := by
  obtain ⟨committed, propagated, delivered, hstages⟩ := h.stages
  have hcommitted : SameStatements subgraph committed := by
    have hcommit := hstages.commit
    unfold commit_pointstamps at hcommit
    refine foldlM_invariant (P := fun middle => SameStatements subgraph middle) ?_ ?_ hcommit
    · exact ⟨rfl, rfl, rfl⟩
    · exact fun _ hbefore hstep => hbefore.trans (sameStatements_commit_pointstamp hstep)
  have hpropagated : SameStatements committed propagated := by
    rw [hstages.propagated_eq]
    exact ⟨rfl, rfl, rfl⟩
  have hdelivered : SameStatements propagated delivered := by
    obtain ⟨⟨last, flag⟩, hfold, rfl⟩ := Option.map_eq_some_iff.mp hstages.deliver
    refine foldlM_invariant (P := fun state : Subgraph O S TOuter TInner × Bool =>
      SameStatements propagated state.1) ?_ ?_ hfold
    · exact ⟨rfl, rfl, rfl⟩
    · exact fun _ hbefore hstep => hbefore.trans (sameStatements_deliver_change hstep)
  have hreported : SameStatements delivered after := by
    have hreport := hstages.report
    unfold report_outputs at hreport
    exact foldlM_invariant (P := fun middle => SameStatements delivered middle) (SameStatements.refl _)
      (fun _ hbefore hstep => hbefore.trans (sameStatements_report_output hstep)) hreport
  exact ((hcommitted.trans hpropagated).trans hdelivered).trans hreported

/-- A child that states what another one does is in the same place. -/
theorem SameStatements.child {subgraph after : Subgraph O S TOuter TInner} (h : SameStatements subgraph after)
    {index : ℕ} {child : PerOperatorState O S TInner} (hchild : after.children[index]? = some child) :
    ∃ before, subgraph.children[index]? = some before ∧ before.stated = child.stated := by
  have hstated := congrArg (fun children : List (PerOperatorState O S TInner) => children[index]?) h.children
  unfold all_stated at hstated
  simp only [List.getElem?_map, hchild, Option.map_some] at hstated
  exact Option.map_eq_some_iff.mp hstated.symm

/-- Telling a child that its frontiers have been set calls its operator. -/
def Told [Operate O TInner] (child changed : PerOperatorState O S TInner) : Prop :=
  changed = child ∨ ∃ operator operator' shared, child.operator = some operator ∧
    Operate.set_external_summary operator child.shared_progress = some (operator', shared) ∧
    changed = { child with operator := some operator', shared_progress := shared }

/-- A child that has been activated: its operator has been scheduled, and what it states extracted. -/
structure Extracted (child scheduled extracted : PerOperatorState O S TInner) : Prop where
  fixed : extracted.fixed = child.fixed
  operator : extracted.operator = scheduled.operator ∨ extracted.operator = none
  consumeds : extracted.shared_progress.consumeds = drained scheduled.shared_progress.consumeds
  internals : extracted.shared_progress.internals = drained scheduled.shared_progress.internals
  produceds : extracted.shared_progress.produceds = drained scheduled.shared_progress.produceds

/-- Activating a child that stands in for no others adds what it states to the local updates. -/
theorem extracted_of_activate_child [Operate O TInner] {subgraph after : Subgraph O S TOuter TInner}
    {child_index : ℕ} {flag : Bool} (hlocal : subgraph.AllLocal) (hindex : child_index ≠ 0)
    (hplain : subgraph.wrapper_ghost = ∅) (h : subgraph.activate_child child_index = some (flag, after)) :
    ∃ child scheduled extracted, subgraph.children[child_index]? = some child ∧
      child.schedule = some (flag, scheduled) ∧ Extracted child scheduled extracted ∧
      after.children = subgraph.children.set child_index extracted ∧
      after.input_messages = subgraph.input_messages ∧
      ∀ key, after.local_pointstamp.value key = subgraph.local_pointstamp.value key + scheduled.statement key := by
  obtain ⟨child, scheduled, reviewed, counted, hactivated⟩ := activated_of_activate_child h
  obtain ⟨_, _, rfl⟩ := set_incomplete_cases hactivated.count
  obtain ⟨⟨extracted, changes, active⟩, hextracted, rfl⟩ := Option.map_eq_some_iff.mp hactivated.extract
  have hreview : reviewed = scheduled ∨ reviewed = scheduled.shut_down := by
    have hreviewed := hactivated.review
    unfold review_child at hreviewed
    split at hreviewed
    case h_1 => cases hreviewed
    case h_2 =>
      split at hreviewed
      · obtain ⟨-, _, rfl⟩ := Option.map_eq_some_iff.mp hreviewed
        exact Or.inl rfl
      · split at hreviewed
        · cases hreviewed
          exact Or.inr rfl
        · cases hreviewed
          exact Or.inl rfl
  have hfixed : reviewed.fixed = child.fixed :=
    (fixed_review_child hactivated.review).trans (fixed_schedule hactivated.schedule)
  have hreviewed : reviewed.is_local = true := by
    have hchild := hlocal child_index child hindex hactivated.child_eq
    change child.fixed.is_local = true at hchild
    rw [← hfixed] at hchild
    exact hchild
  have hnone : subgraph.wrapper_ghost.lookup reviewed.index = none := by
    rw [hplain]
    exact AList.lookup_empty _
  obtain ⟨hvalue, hextracted⟩ := value_extract_progress hnone hextracted
  refine ⟨child, scheduled, extracted, hactivated.child_eq, hactivated.schedule, ⟨?_, ?_, ?_, ?_, ?_⟩, rfl,
    rfl, fun key => ?_⟩
  · rw [hextracted]
    exact hfixed
  · rw [hextracted]
    rcases hreview with rfl | rfl
    · exact Or.inl rfl
    · exact Or.inr rfl
  · rw [hextracted]
    rcases hreview with rfl | rfl <;> rfl
  · rw [hextracted]
    rcases hreview with rfl | rfl <;> rfl
  · rw [hextracted]
    rcases hreview with rfl | rfl <;> rfl
  · have hsum := hvalue key
    simp only [hreviewed, if_true] at hsum ⊢
    rw [hsum, add_right_inj]
    rcases hreview with rfl | rfl <;> rfl

/-- A child is activated, and what it states added to the local updates. -/
structure ActivatedAt [Operate O TInner] (index : ℕ) (child scheduled last : PerOperatorState O S TInner)
    (subgraph after : Subgraph O S TOuter TInner) : Prop where
  inner : index ≠ 0
  child_eq : subgraph.children[index]? = some child
  schedule : ∃ flag, child.schedule = some (flag, scheduled)
  extracted : Extracted child scheduled last
  children : after.children = subgraph.children.set index last
  input_messages : after.input_messages = subgraph.input_messages
  locals : ∀ key, after.local_pointstamp.value key =
    subgraph.local_pointstamp.value key + scheduled.statement key

/-- Activating a child extracts what it states. -/
theorem ScopeStep.activated [PathSummary S TInner] [Operate O TInner]
    {subgraph after : Subgraph O S TOuter TInner} {index : ℕ}
    (h : ScopeStep subgraph (.activate_child index) after)
    (hscheduled : (ScopeEvent.activate_child index : ScopeEvent TOuter TInner).Scheduled)
    (hlocal : subgraph.AllLocal) (hplain : subgraph.wrapper_ghost = ∅) :
    ∃ child scheduled last, ActivatedAt index child scheduled last subgraph after := by
  cases h with
  | activate_child hactivate =>
    obtain ⟨child, scheduled, extracted, hchild, hschedule, hextracted, hchildren, hmessages, hlocals⟩ :=
      extracted_of_activate_child hlocal hscheduled hplain hactivate
    exact ⟨child, scheduled, extracted, hscheduled, hchild, ⟨_, hschedule⟩, hextracted, hchildren, hmessages,
      hlocals⟩

/-- In the other steps of a scope without inputs, at most one child is told that its frontiers have been
    set. -/
theorem ScopeStep.told_cases [PathSummary S TInner] [Operate O TInner]
    {subgraph after : Subgraph O S TOuter TInner} {event : ScopeEvent TOuter TInner}
    (h : ScopeStep subgraph event after) (hscheduled : event.Scheduled)
    (hother : ∀ index, event ≠ .activate_child index) (hinputs : subgraph.input_messages = []) :
    SameStatements subgraph after ∨
      ∃ index child changed, subgraph.children[index]? = some child ∧ Told child changed ∧
        after = { subgraph with children := subgraph.children.set index changed } := by
  cases h with
  | outer_frontier _ => exact Or.inl ⟨rfl, rfl, rfl⟩
  | accept_frontier => exact Or.inl ⟨rfl, rfl, rfl⟩
  | enter hupdate =>
    rw [hinputs] at hupdate
    cases hupdate
  | harvest_inputs hharvest =>
    left
    unfold Subgraph.harvest_inputs at hharvest
    split at hharvest
    case h_1 => cases hharvest
    case h_2 =>
      split at hharvest
      case isFalse => cases hharvest
      case isTrue =>
        rw [hinputs] at hharvest
        cases hharvest
        exact ⟨rfl, rfl, hinputs.symm⟩
  | receive => exact absurd hscheduled id
  | propagate_pointstamps hpropagates => exact Or.inl hpropagates.sameStatements
  | express_child _ => exact absurd hscheduled id
  | set_child_external_summary hset =>
    obtain ⟨child, changed, hchild, hchanged, rfl⟩ := modify_child_cases hset
    refine Or.inr ⟨_, child, changed, hchild, ?_, rfl⟩
    split at hchanged
    case h_1 =>
      cases hchanged
      exact Or.inl rfl
    case h_2 operator hoperator =>
      obtain ⟨outcome, houtcome, rfl⟩ := Option.map_eq_some_iff.mp hchanged
      exact Or.inr ⟨operator, outcome.1, outcome.2, hoperator, houtcome, rfl⟩
  | activate_child _ => exact absurd rfl (hother _)
  | send_progress _ => exact absurd hscheduled id
  | extract_progress => exact Or.inl ⟨rfl, rfl, rfl⟩

/-- Of the steps of a scope without inputs, two kinds concern statements: one child is told that its
    frontiers have been set, or one child is activated. -/
theorem ScopeStep.statement_cases [PathSummary S TInner] [Operate O TInner]
    {subgraph after : Subgraph O S TOuter TInner} {event : ScopeEvent TOuter TInner}
    (h : ScopeStep subgraph event after) (hscheduled : event.Scheduled) (hlocal : subgraph.AllLocal)
    (hplain : subgraph.wrapper_ghost = ∅) (hinputs : subgraph.input_messages = []) :
    SameStatements subgraph after ∨
      (∃ index child changed, subgraph.children[index]? = some child ∧ Told child changed ∧
        after = { subgraph with children := subgraph.children.set index changed }) ∨
      ∃ index child scheduled last, ActivatedAt index child scheduled last subgraph after := by
  by_cases hactivates : ∃ index, event = .activate_child index
  · obtain ⟨index, rfl⟩ := hactivates
    exact Or.inr (Or.inr ⟨index, h.activated hscheduled hlocal hplain⟩)
  · rcases h.told_cases hscheduled (fun index heq => hactivates ⟨index, heq⟩) hinputs with hsame | htold
    · exact Or.inl hsame
    · exact Or.inr (Or.inl htold)

end Subgraph

end Timely
