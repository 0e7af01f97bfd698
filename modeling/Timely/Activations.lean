/-
  Timely/Activations.lean
  =======================
  **Active paths** (`timely/src/scheduling/activate.rs`).

  All active paths lie in one array, `slices`, and `bounds` cuts it.  The first
  `clean` bounds are the ones to report: their paths ascend.  Paths that are
  activated meanwhile are appended behind them, until `advance` drops the clean
  ones and sorts and compacts the others.  That the bounds lie within the array
  and the clean paths ascend is part of the structure.
-/
import Timely.Duration
import Timely.Library.BinarySearch
import Timely.Library.PriorityQueue
import Timely.Library.StableSort
import Timely.Library.Words

namespace Timely

open Library

/-- What a bound, an offset and a length, cuts out of the slices. -/
def path_at (slices : List ℕ) (bound : ℕ × ℕ) : List ℕ := (slices.drop bound.1).take bound.2

/-- The order of the queue: by moment, then by path.  Items that neither comes before the other are equal,
    so every heap has them in one order. -/
def sooner (first second : Duration × List ℕ) : Prop :=
  first.1 < second.1 ∨ first.1 = second.1 ∧ first.2 ≤ second.2

instance : DecidableRel sooner := fun first second =>
  inferInstanceAs (Decidable (first.1 < second.1 ∨ first.1 = second.1 ∧ first.2 ≤ second.2))

instance : Std.Total sooner where
  total first second := by
    rcases Duration.le_total first.1 second.1 with hle | hle
    · rcases hle.lt_or_eq with hlt | heq
      · exact Or.inl (Or.inl hlt)
      · exact (le_total first.2 second.2).imp (fun h => Or.inr ⟨heq, h⟩) fun h => Or.inr ⟨heq.symm, h⟩
    · rcases hle.lt_or_eq with hlt | heq
      · exact Or.inr (Or.inl hlt)
      · exact (le_total first.2 second.2).imp (fun h => Or.inr ⟨heq.symm, h⟩) fun h => Or.inr ⟨heq, h⟩

instance : IsTrans (Duration × List ℕ) sooner where
  trans _ _ _ h h' :=
    Prod.lex_def.mp ((Prod.lex_def.mpr h).trans (Prod.lex_def.mpr h'))

/-- Whatever comes sooner comes at a moment that is no later. -/
theorem le_of_sooner {first second : Duration × List ℕ} (h : sooner first second) : first.1 ≤ second.1 := by
  rcases h with hlt | ⟨heq, -⟩
  · exact hlt.le
  · exact heq.le

/-- Activation tracker.  `rx` holds what other threads have sent, `queue` the delayed activations. -/
structure Activations where
  clean : ℕ
  bounds : List (ℕ × ℕ)
  slices : List ℕ
  rx : List (List ℕ)
  queue : PriorityQueue (Duration × List ℕ) sooner
  clean_le : clean ≤ bounds.length
  within : ∀ bound ∈ bounds, bound.1 + bound.2 ≤ slices.length
  ascending : ((bounds.take clean).map (path_at slices)).Pairwise (· < ·)

/-! ### Cutting -/

theorem length_path_at {slices : List ℕ} {bound : ℕ × ℕ} (h : bound.1 + bound.2 ≤ slices.length) :
    (path_at slices bound).length = bound.2 := by
  rw [path_at, List.length_take, List.length_drop]
  omega

/-- What is appended to the slices changes nothing within them. -/
theorem path_at_append {slices : List ℕ} {bound : ℕ × ℕ} (h : bound.1 + bound.2 ≤ slices.length)
    (more : List ℕ) : path_at (slices ++ more) bound = path_at slices bound := by
  rw [path_at, path_at, List.drop_append_of_le_length (by omega), List.take_append_of_le_length]
  rw [List.length_drop]
  omega

/-- A bound at the end cuts out what has been appended there. -/
theorem path_at_end (slices path : List ℕ) : path_at (slices ++ path) (slices.length, path.length) = path := by
  rw [path_at, List.drop_left, List.take_length]

theorem map_path_at_append {slices : List ℕ} {bounds : List (ℕ × ℕ)}
    (h : ∀ bound ∈ bounds, bound.1 + bound.2 ≤ slices.length) (more : List ℕ) :
    bounds.map (path_at (slices ++ more)) = bounds.map (path_at slices) :=
  List.map_congr_left fun bound hbound => path_at_append (h bound hbound) more

/-- Copies the paths of the bounds into a buffer, one behind the other. -/
def compact_slices (slices : List ℕ) (bounds : List (ℕ × ℕ)) : List ℕ × List (ℕ × ℕ) :=
  bounds.foldl (fun state bound =>
    let buffer := state.1 ++ path_at slices bound
    (buffer, state.2 ++ [(buffer.length - bound.2, bound.2)])) ([], [])

/-- The compacted paths are those there were. -/
theorem compact_slices_spec {slices : List ℕ} {bounds : List (ℕ × ℕ)}
    (h : ∀ bound ∈ bounds, bound.1 + bound.2 ≤ slices.length) :
    (∀ bound ∈ (compact_slices slices bounds).2,
      bound.1 + bound.2 ≤ (compact_slices slices bounds).1.length)
    ∧ (compact_slices slices bounds).2.map (path_at (compact_slices slices bounds).1)
      = bounds.map (path_at slices) := by
  induction bounds using List.reverseRecOn with
  | nil => exact ⟨fun _ hbound => absurd hbound List.not_mem_nil, rfl⟩
  | append_singleton bounds last ih =>
    obtain ⟨hwithin, hpaths⟩ := ih fun bound hbound => h bound (List.mem_append_left _ hbound)
    have hlength := length_path_at (h last (by simp))
    have hstep : compact_slices slices (bounds ++ [last])
        = ((compact_slices slices bounds).1 ++ path_at slices last,
          (compact_slices slices bounds).2 ++
            [((compact_slices slices bounds).1.length, (path_at slices last).length)]) := by
      rw [compact_slices, List.foldl_append, List.foldl_cons, List.foldl_nil, ← compact_slices]
      dsimp only
      rw [List.length_append, hlength, Nat.add_sub_cancel]
    rw [hstep]
    refine ⟨fun bound hbound => ?_, ?_⟩
    · rw [List.length_append]
      rcases List.mem_append.mp hbound with hold | hnew
      · exact (hwithin bound hold).trans (Nat.le_add_right _ _)
      · rw [List.mem_singleton.mp hnew]
    · rw [List.map_append, List.map_append, map_path_at_append hwithin, hpaths, List.map_singleton,
        List.map_singleton, path_at_end]

namespace Activations

/-! ### Operations -/

/-- Creates a new activation tracker. -/
def new : Activations where
  clean := 0
  bounds := []
  slices := []
  rx := []
  queue := PriorityQueue.new
  clean_le := le_rfl
  within := fun _ hbound => absurd hbound List.not_mem_nil
  ascending := List.Pairwise.nil

/-- Activates the task addressed by `path`. -/
def activate (activations : Activations) (path : List ℕ) : Activations where
  clean := activations.clean
  bounds := activations.bounds ++ [(activations.slices.length, path.length)]
  slices := activations.slices ++ path
  rx := activations.rx
  queue := activations.queue
  clean_le := by
    rw [List.length_append]
    exact activations.clean_le.trans (Nat.le_add_right _ _)
  within := by
    intro bound hbound
    rw [List.length_append]
    rcases List.mem_append.mp hbound with hold | hnew
    · exact (activations.within bound hold).trans (Nat.le_add_right _ _)
    · rw [List.mem_singleton.mp hnew]
  ascending := by
    have hclean : ∀ bound ∈ activations.bounds.take activations.clean,
        bound.1 + bound.2 ≤ activations.slices.length :=
      fun bound hbound => activations.within bound (List.mem_of_mem_take hbound)
    rw [List.take_append_of_le_length activations.clean_le, map_path_at_append hclean]
    exact activations.ascending

/-- Schedules a future activation.  No moment is beyond the greatest duration: the addition of
    the delay would panic. -/
def activate_after (activations : Activations) (path : List ℕ) (delay elapsed : Duration) :
    Option Activations :=
  if delay = default then some (activations.activate path)
  else (elapsed.checked_add delay).map fun moment =>
    { activations with queue := activations.queue.push (moment, path) }

/-- Another thread sends an activation. -/
def sync_activate (activations : Activations) (path : List ℕ) : Activations :=
  { activations with rx := activations.rx ++ [path] }

/-- Drains inter-thread activations. -/
def drain_sync (activations : Activations) : Activations :=
  activations.rx.foldl activate { activations with rx := [] }

/-- Drains timer-based activations: pops while the next moment is not after `now`. -/
def drain_timers (activations : Activations) (now : Duration) : Activations :=
  ((activations.queue.items.takeWhile fun item => item.1 ≤ now).map Prod.snd).foldl activate
    { activations with queue := activations.queue.pop_while fun item => item.1 ≤ now }

/-- The bounds that are not clean, in the order of their paths, each path once. -/
def next_bounds (activations : Activations) : List (ℕ × ℕ) :=
  dedup_by_key (path_at activations.slices)
    (stable_sort (path_at activations.slices) (activations.bounds.drop activations.clean))

theorem next_bounds_within (activations : Activations) :
    ∀ bound ∈ activations.next_bounds, bound.1 + bound.2 ≤ activations.slices.length := by
  intro bound hbound
  have hsorted := mem_of_mem_dedup_by_key hbound
  exact activations.within bound (List.mem_of_mem_drop (mem_stable_sort.mp hsorted))

theorem next_bounds_ascending (activations : Activations) :
    (activations.next_bounds.map (path_at activations.slices)).Pairwise (· < ·) :=
  pairwise_dedup_by_key (stable_sort_stably_sorted _ _).ordered

/-- Discards the clean bounds, and makes the others clean. -/
def clean_up (activations : Activations) : Activations where
  clean := (compact_slices activations.slices activations.next_bounds).2.length
  bounds := (compact_slices activations.slices activations.next_bounds).2
  slices := (compact_slices activations.slices activations.next_bounds).1
  rx := activations.rx
  queue := activations.queue
  clean_le := le_rfl
  within := (compact_slices_spec activations.next_bounds_within).1
  ascending := by
    rw [List.take_length, (compact_slices_spec activations.next_bounds_within).2]
    exact activations.next_bounds_ascending

/-- Discards the current active set and presents the next active set. -/
def advance (activations : Activations) (now : Duration) : Activations :=
  (activations.drain_sync.drain_timers now).clean_up

/-- Maps a function across activated paths. -/
def map_active {R : Type} (activations : Activations) (logic : List ℕ → R) : List R :=
  activations.bounds.map fun bound => logic (path_at activations.slices bound)

/-- The symbols at a position of these paths, without a symbol that has just been reported. -/
def extensions (length : ℕ) : Option ℕ → List (List ℕ) → List ℕ
  | _, [] => []
  | previous, path :: paths =>
    match path[length]? with
    | some extension =>
      if previous ≠ some extension then extension :: extensions length (some extension) paths
      else extensions length previous paths
    | none => extensions length previous paths

/-- The symbols that follow `path`: the search is among the clean bounds, the scan is not. -/
def for_extensions (activations : Activations) (path : List ℕ) : List ℕ :=
  let clean_bounds := activations.bounds.take activations.clean
  let start := position (binary_search_by_key (path_at activations.slices) path clean_bounds)
  extensions path.length none
    (((activations.bounds.drop start).map (path_at activations.slices)).takeWhile (path.isPrefixOf ·))

/-! ### What the operations do to the paths -/

/-- All paths that are active, the clean ones first. -/
def paths (activations : Activations) : List (List ℕ) := activations.map_active id

/-- The paths that have been activated since the last `advance`. -/
def fresh (activations : Activations) : List (List ℕ) := activations.paths.drop activations.clean

/-- Paths have been appended; nothing else has changed. -/
structure Appended (before after : Activations) (paths : List (List ℕ)) : Prop where
  paths : after.paths = before.paths ++ paths
  clean : after.clean = before.clean
  rx : after.rx = before.rx
  queue : after.queue = before.queue

theorem length_paths (activations : Activations) : activations.paths.length = activations.bounds.length :=
  List.length_map _

theorem map_take_bounds (activations : Activations) (n : ℕ) :
    (activations.bounds.take n).map (path_at activations.slices) = activations.paths.take n :=
  List.map_take

theorem map_drop_bounds (activations : Activations) (n : ℕ) :
    (activations.bounds.drop n).map (path_at activations.slices) = activations.paths.drop n :=
  List.map_drop

theorem appended_activate (activations : Activations) (path : List ℕ) :
    Appended activations (activations.activate path) [path] where
  paths := by
    change (activations.bounds ++ [_]).map (path_at (activations.slices ++ path)) = _
    rw [List.map_append, map_path_at_append activations.within, List.map_singleton, path_at_end]
    rfl
  clean := rfl
  rx := rfl
  queue := rfl

theorem Appended.trans {before middle after : Activations} {paths more : List (List ℕ)}
    (h : Appended before middle paths) (h' : Appended middle after more) :
    Appended before after (paths ++ more) where
  paths := by rw [h'.paths, h.paths, List.append_assoc]
  clean := h'.clean.trans h.clean
  rx := h'.rx.trans h.rx
  queue := h'.queue.trans h.queue

theorem appended_foldl_activate (activations : Activations) (paths : List (List ℕ)) :
    Appended activations (paths.foldl activate activations) paths := by
  induction paths generalizing activations with
  | nil => exact ⟨(List.append_nil _).symm, rfl, rfl, rfl⟩
  | cons path paths ih => exact (appended_activate activations path).trans (ih _)

/-- Appended paths are fresh. -/
theorem Appended.fresh {before after : Activations} {paths : List (List ℕ)}
    (h : Appended before after paths) : after.fresh = before.fresh ++ paths := by
  have hclean := before.clean_le
  rw [← length_paths] at hclean
  rw [Activations.fresh, h.paths, h.clean, List.drop_append_of_le_length hclean]
  rfl

theorem appended_drain_sync (activations : Activations) :
    Appended { activations with rx := [] } activations.drain_sync activations.rx :=
  appended_foldl_activate _ _

theorem appended_drain_timers (activations : Activations) (now : Duration) :
    Appended { activations with queue := activations.queue.pop_while fun item => item.1 ≤ now }
      (activations.drain_timers now)
      ((activations.queue.items.takeWhile fun item => item.1 ≤ now).map Prod.snd) :=
  appended_foldl_activate _ _

/-- Moments that are due are passed down along the queue. -/
theorem due_passed_down (activations : Activations) (now : Duration) :
    activations.queue.items.Pairwise fun item item' =>
      decide (item'.1 ≤ now) = true → decide (item.1 ≤ now) = true := by
  refine activations.queue.sorted.imp fun hsooner hdue => ?_
  rw [decide_eq_true_eq] at hdue ⊢
  exact (le_of_sooner hsooner).trans hdue

theorem paths_clean_up (activations : Activations) :
    activations.clean_up.paths = activations.next_bounds.map (path_at activations.slices) :=
  (compact_slices_spec activations.next_bounds_within).2

theorem mem_paths_clean_up {activations : Activations} {path : List ℕ} :
    path ∈ activations.clean_up.paths ↔ path ∈ activations.fresh := by
  have hsorted := stable_sort_stably_sorted (path_at activations.slices)
    (activations.bounds.drop activations.clean)
  rw [paths_clean_up, next_bounds, mem_map_dedup_by_key hsorted.ordered, fresh, ← map_drop_bounds,
    List.mem_map, List.mem_map]
  exact exists_congr fun bound => and_congr_left fun _ => mem_stable_sort

/-- After `advance` the active paths are those that were fresh, those that other threads have
    sent, and those that were due.  Nothing is fresh; what was not due is still in the queue. -/
theorem advance_spec (activations : Activations) (now : Duration) :
    (∀ path, path ∈ (activations.advance now).paths ↔ path ∈ activations.fresh ∨ path ∈ activations.rx ∨
      ∃ item ∈ activations.queue.items, item.1 ≤ now ∧ item.2 = path)
    ∧ (activations.advance now).clean = (activations.advance now).paths.length
    ∧ (activations.advance now).rx = []
    ∧ ∀ item, item ∈ (activations.advance now).queue.items ↔
      item ∈ activations.queue.items ∧ ¬ item.1 ≤ now := by
  have hsync := activations.appended_drain_sync
  have htimers := activations.drain_sync.appended_drain_timers now
  have hqueue : activations.drain_sync.queue = activations.queue := hsync.queue
  refine ⟨fun path => ?_, ?_, htimers.rx.trans hsync.rx, fun item => ?_⟩
  · have hfresh := htimers.fresh
    change _ = activations.drain_sync.fresh ++ _ at hfresh
    rw [advance, mem_paths_clean_up, hfresh, hsync.fresh, hqueue,
      takeWhile_eq_filter (activations.due_passed_down now), List.mem_append, List.mem_append, or_assoc]
    refine or_congr Iff.rfl (or_congr Iff.rfl ?_)
    rw [List.mem_map]
    refine exists_congr fun item => ?_
    rw [List.mem_filter, decide_eq_true_eq, and_assoc]
  · rw [length_paths]
    rfl
  · have hitems : (activations.advance now).queue.items
        = activations.queue.items.dropWhile fun item => decide (item.1 ≤ now) := by
      rw [← hqueue]
      exact (congrArg PriorityQueue.items htimers.queue).trans (PriorityQueue.items_pop_while _ _)
    rw [hitems, mem_dropWhile_iff (activations.due_passed_down now), decide_eq_true_eq]

/-! ### What is reported -/

/-- Scanning more paths adds to what is reported. -/
theorem extensions_append (length : ℕ) (previous : Option ℕ) (first second : List (List ℕ)) :
    ∃ later, extensions length previous (first ++ second)
      = extensions length previous first ++ extensions length later second := by
  induction first generalizing previous with
  | nil => exact ⟨previous, rfl⟩
  | cons path paths ih =>
    rw [List.cons_append, extensions, extensions]
    cases path[length]? with
    | none => exact ih previous
    | some extension =>
      dsimp only
      by_cases hnew : previous ≠ some extension
      · obtain ⟨later, hlater⟩ := ih (some extension)
        exact ⟨later, by rw [if_pos hnew, if_pos hnew, hlater, List.cons_append]⟩
      · rw [if_neg hnew, if_neg hnew]
        exact ih previous

/-- What is reported are the symbols at the position, each once in each row of equals. -/
theorem extensions_eq_destutter (length : ℕ) (paths : List (List ℕ)) :
    extensions length none paths = (paths.filterMap fun path => path[length]?).destutter (· ≠ ·)
    ∧ ∀ symbol, symbol :: extensions length (some symbol) paths
      = (paths.filterMap fun path => path[length]?).destutter' (· ≠ ·) symbol := by
  induction paths with
  | nil => exact ⟨rfl, fun _ => rfl⟩
  | cons path paths ih =>
    rw [List.filterMap_cons, extensions]
    cases hextension : path[length]? with
    | none =>
      refine ⟨ih.1, fun symbol => ?_⟩
      rw [extensions, hextension]
      exact ih.2 symbol
    | some extension =>
      refine ⟨ih.2 extension, fun symbol => ?_⟩
      rw [extensions, hextension]
      dsimp only
      by_cases heq : symbol = extension
      · rw [List.destutter'_cons_neg _ (not_not.mpr heq), if_neg (by simpa using heq)]
        exact ih.2 symbol
      · rw [List.destutter'_cons_pos _ heq, if_pos (by simpa using heq), ih.2 extension]

theorem exists_of_mem_extensions {length : ℕ} {previous : Option ℕ} {paths : List (List ℕ)} {symbol : ℕ}
    (h : symbol ∈ extensions length previous paths) : ∃ path ∈ paths, path[length]? = some symbol := by
  induction paths generalizing previous with
  | nil => exact absurd h List.not_mem_nil
  | cons path paths ih =>
    rw [extensions] at h
    have hrest : ∀ {previous}, symbol ∈ extensions length previous paths →
        ∃ path' ∈ path :: paths, path'[length]? = some symbol := by
      intro previous hmem
      obtain ⟨path', hpath', hsymbol⟩ := ih hmem
      exact ⟨path', List.mem_cons_of_mem _ hpath', hsymbol⟩
    cases hextension : path[length]? with
    | none =>
      rw [hextension] at h
      exact hrest h
    | some extension =>
      rw [hextension] at h
      dsimp only at h
      split_ifs at h with hnew
      · rcases List.mem_cons.mp h with rfl | hmem
        · exact ⟨path, List.mem_cons_self, hextension⟩
        · exact hrest hmem
      · exact hrest h

/-- The symbols that are reported for clean paths. -/
def clean_extensions (activations : Activations) (path : List ℕ) : List ℕ :=
  extensions path.length none
    ((activations.paths.take activations.clean).filter (path.isPrefixOf ·))

/-- What is reported for the clean paths comes first; fresh paths can only add to it. -/
theorem for_extensions_eq (activations : Activations) (path : List ℕ) :
    ∃ more, activations.for_extensions path = activations.clean_extensions path ++ more ∧
      ∀ symbol ∈ more, ∃ active ∈ activations.fresh, path ++ [symbol] <+: active := by
  have hascending := activations.ascending
  obtain ⟨place, hle, hplace, hbefore, hafter⟩ :=
    binary_search_by_key_splits (List.pairwise_map.mp hascending) path
  rw [List.length_take, Nat.min_eq_left activations.clean_le] at hle
  rw [map_take_bounds] at hascending
  have htogether : ((activations.paths.take activations.clean).drop place).takeWhile (path.isPrefixOf ·)
      = (activations.paths.take activations.clean).filter (path.isPrefixOf ·) := by
    refine takeWhile_drop_eq_filter hascending ?_ ?_
    · rw [← map_take_bounds, ← List.map_take]
      exact List.forall_mem_map.mpr hbefore
    · rw [← map_take_bounds, ← List.map_drop]
      exact List.forall_mem_map.mpr hafter
  -- the scan goes on into the fresh paths if it reaches them
  have hsplit : activations.paths.drop place
      = (activations.paths.take activations.clean).drop place ++ activations.fresh := by
    rw [fresh, ← List.drop_append_of_le_length, List.take_append_drop]
    rw [List.length_take, length_paths, Nat.min_eq_left activations.clean_le]
    exact hle
  obtain ⟨scanned, hscanned, hfresh⟩ : ∃ scanned,
      (activations.paths.drop place).takeWhile (path.isPrefixOf ·)
        = (activations.paths.take activations.clean).filter (path.isPrefixOf ·) ++ scanned
      ∧ ∀ active ∈ scanned, active ∈ activations.fresh ∧ path <+: active := by
    rw [hsplit, List.takeWhile_append]
    split_ifs with hall
    · refine ⟨activations.fresh.takeWhile (path.isPrefixOf ·), ?_, fun active hactive => ?_⟩
      · rw [← htogether, (List.takeWhile_prefix _).eq_of_length hall]
      · exact ⟨(List.takeWhile_prefix _).subset hactive,
          List.isPrefixOf_iff_prefix.mp (List.mem_takeWhile_imp hactive)⟩
    · refine ⟨[], ?_, fun _ hactive => absurd hactive List.not_mem_nil⟩
      rw [htogether, List.append_nil]
  obtain ⟨later, hlater⟩ := extensions_append path.length none
    ((activations.paths.take activations.clean).filter (path.isPrefixOf ·)) scanned
  refine ⟨extensions path.length later scanned, ?_, fun symbol hsymbol => ?_⟩
  · rw [for_extensions, hplace, map_drop_bounds, hscanned, hlater]
    rfl
  · obtain ⟨active, hactive, hextension⟩ := exists_of_mem_extensions hsymbol
    exact ⟨active, (hfresh active hactive).1, concat_prefix_iff.mpr ⟨(hfresh active hactive).2, hextension⟩⟩

/-- The symbols reported for clean paths ascend, and are those that some clean path has after the
    given one. -/
theorem clean_extensions_exact (activations : Activations) (path : List ℕ) :
    (activations.clean_extensions path).Pairwise (· < ·)
    ∧ ∀ symbol, symbol ∈ activations.clean_extensions path ↔
      ∃ active ∈ activations.paths.take activations.clean, path ++ [symbol] <+: active := by
  have hascending := activations.ascending
  rw [map_take_bounds] at hascending
  have hsymbols := pairwise_symbols (hascending.sublist (List.filter_sublist (p := (path.isPrefixOf ·))))
    fun word hword => List.isPrefixOf_iff_prefix.mp (List.mem_filter.mp hword).2
  have hdedup := (extensions_eq_destutter path.length
    ((activations.paths.take activations.clean).filter (path.isPrefixOf ·))).1.trans
      hsymbols.destutter_eq_dedup
  rw [clean_extensions, hdedup]
  constructor
  · refine ((hsymbols.sublist (List.dedup_sublist _)).and (List.nodup_dedup _)).imp fun hboth => ?_
    exact lt_of_le_of_ne hboth.1 hboth.2
  · intro symbol
    rw [List.mem_dedup, List.mem_filterMap]
    refine exists_congr fun active => ?_
    rw [List.mem_filter, List.isPrefixOf_iff_prefix, and_assoc, concat_prefix_iff]

end Activations

end Timely
