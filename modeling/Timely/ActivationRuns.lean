/-
  Timely/ActivationRuns.lean
  ==========================
  **Activations over whole runs.**

  An activation is due at once, or from its moment on, and makes its path active
  at the first `advance` at which it is due.  These are the paths whose
  extensions are reported until the next `advance`, whatever is activated
  meanwhile.
-/
import Timely.Activations
import Timely.Library.Run
import Timely.Library.Since

namespace Timely

open Library

namespace Activations

/-- What is called.  The clock is read when an activation is delayed, and by `advance`. -/
inductive Call
  | activate (path : List ℕ)
  | activate_after (path : List ℕ) (delay elapsed : Duration)
  | sync_activate (path : List ℕ)
  | advance (now : Duration)

/-- Performs a call. -/
def perform (activations : Activations) : Call → Option Activations
  | .activate path => some (activations.activate path)
  | .activate_after path delay elapsed => activations.activate_after path delay elapsed
  | .sync_activate path => some (activations.sync_activate path)
  | .advance now => some (activations.advance now)

/-- A call that returns. -/
def Performs (before : Activations) (call : Call) (after : Activations) : Prop :=
  before.perform call = some after

namespace Call

/-- The call activates the path without delay. -/
def Activates (path : List ℕ) : Call → Prop
  | .activate other | .sync_activate other => other = path
  | .activate_after other delay _ => other = path ∧ delay = default
  | .advance _ => False

/-- The call asks for an activation of the path at a moment to come. -/
def Delays (item : Duration × List ℕ) : Call → Prop
  | .activate_after other delay elapsed =>
    other = item.2 ∧ delay ≠ default ∧ elapsed.checked_add delay = some item.1
  | _ => False

/-- The call asks for an activation of the path that is due by `now`. -/
def Due (path : List ℕ) (now : Duration) (call : Call) : Prop :=
  call.Activates path ∨ ∃ moment ≤ now, call.Delays (moment, path)

/-- The call is no `advance` at which this holds. -/
def NoAdvance (holds : Duration → Prop) : Call → Prop
  | .advance now => ¬ holds now
  | _ => True

end Call

/-- Some call has asked for an activation of the path that is due by `now`, and was not at any
    `advance` since. -/
def Active (calls : List Call) (now : Duration) (path : List ℕ) : Prop :=
  ∃ earlier call later, calls = earlier ++ call :: later ∧ call.Due path now ∧
    ∀ other ∈ later, other.NoAdvance fun before => call.Due path before

/-! ### Single calls -/

theorem moment_of_delays {item : Duration × List ℕ} {call : Call} (h : call.Delays item)
    {moment : Duration} (h' : call.Delays (moment, item.2)) : moment = item.1 := by
  cases call with
  | activate_after path delay elapsed => exact Option.some.inj (h'.2.2.symm.trans h.2.2)
  | activate path => exact absurd h id
  | sync_activate path => exact absurd h id
  | advance now => exact absurd h id

theorem not_delays_of_activates {item : Duration × List ℕ} {call : Call} (h : call.Activates item.2) :
    ¬ call.Delays item := by
  cases call with
  | activate_after path delay elapsed => exact fun hdelays => hdelays.2.1 h.2
  | activate path => exact id
  | sync_activate path => exact id
  | advance now => exact id

theorem Appended.mem_fresh {before after : Activations} {path : List ℕ} (h : Appended before after [path])
    {other : List ℕ} : other ∈ after.fresh ↔ other ∈ before.fresh ∨ path = other := by
  rw [h.fresh, List.mem_append, List.mem_singleton, eq_comm (a := path)]

/-- What waits for the next `advance`: every call adds what it activates, and `advance` takes all. -/
theorem waiting_of_performs {before after : Activations} {call : Call} (h : Performs before call after)
    (path : List ℕ) :
    path ∈ after.fresh ∨ path ∈ after.rx ↔ call.Activates path ∨
      call.NoAdvance (fun _ => True) ∧ (path ∈ before.fresh ∨ path ∈ before.rx) := by
  cases call with
  | activate other =>
    cases h
    rw [(appended_activate before other).mem_fresh, (appended_activate before other).rx]
    simp only [Call.Activates, Call.NoAdvance, true_and]
    tauto
  | activate_after other delay elapsed =>
    change before.activate_after other delay elapsed = some after at h
    rw [activate_after] at h
    split_ifs at h with hdelay
    · cases h
      rw [(appended_activate before other).mem_fresh, (appended_activate before other).rx]
      simp only [Call.Activates, Call.NoAdvance, hdelay, and_true, true_and]
      tauto
    · obtain ⟨moment, -, rfl⟩ := Option.map_eq_some_iff.mp h
      simp only [Call.Activates, Call.NoAdvance, hdelay, and_false, false_or, true_and]
      rfl
  | sync_activate other =>
    cases h
    change path ∈ before.fresh ∨ path ∈ before.rx ++ [other] ↔ _
    rw [List.mem_append, List.mem_singleton]
    simp only [Call.Activates, Call.NoAdvance, true_and]
    tauto
  | advance now =>
    cases h
    obtain ⟨-, hclean, hrx, -⟩ := before.advance_spec now
    rw [fresh, hclean, List.drop_length, hrx]
    simp [Call.Activates, Call.NoAdvance]

/-- What waits for its moment: every call adds what it delays, and `advance` takes what is due. -/
theorem queued_of_performs {before after : Activations} {call : Call} (h : Performs before call after)
    (item : Duration × List ℕ) :
    item ∈ after.queue.items ↔ call.Delays item ∨
      call.NoAdvance (fun now => item.1 ≤ now) ∧ item ∈ before.queue.items := by
  cases call with
  | activate other =>
    cases h
    simp only [Call.Delays, Call.NoAdvance, false_or, true_and]
    rfl
  | activate_after other delay elapsed =>
    change before.activate_after other delay elapsed = some after at h
    rw [activate_after] at h
    split_ifs at h with hdelay
    · cases h
      simp only [Call.Delays, Call.NoAdvance, hdelay, ne_eq, not_true, false_and, and_false, false_or,
        true_and]
      rfl
    · obtain ⟨moment, hmoment, rfl⟩ := Option.map_eq_some_iff.mp h
      change item ∈ (before.queue.push (moment, other)).items ↔ _
      rw [PriorityQueue.mem_push]
      simp only [Call.Delays, Call.NoAdvance, hdelay, hmoment, ne_eq, not_false_iff, true_and,
        Option.some.injEq]
      refine or_congr_left ⟨?_, ?_⟩
      · rintro rfl
        exact ⟨rfl, rfl⟩
      · rintro ⟨rfl, rfl⟩
        rfl
  | sync_activate other =>
    cases h
    simp only [Call.Delays, Call.NoAdvance, false_or, true_and]
    rfl
  | advance now =>
    cases h
    rw [(before.advance_spec now).2.2.2 item]
    simp only [Call.Delays, Call.NoAdvance, false_or]
    exact and_comm

/-- Between two `advance`s paths are only appended, and only ones that are activated. -/
theorem appends_of_performs {before after : Activations} {call : Call} (h : Performs before call after)
    (hcall : call.NoAdvance fun _ => True) :
    ∃ added, after.paths = before.paths ++ added ∧ after.clean = before.clean ∧
      ∀ path ∈ added, call.Activates path := by
  cases call with
  | activate other =>
    cases h
    refine ⟨[other], (appended_activate before other).paths, rfl, fun path hpath => ?_⟩
    exact (List.mem_singleton.mp hpath).symm
  | activate_after other delay elapsed =>
    change before.activate_after other delay elapsed = some after at h
    rw [activate_after] at h
    split_ifs at h with hdelay
    · cases h
      refine ⟨[other], (appended_activate before other).paths, rfl, fun path hpath => ?_⟩
      exact ⟨(List.mem_singleton.mp hpath).symm, hdelay⟩
    · obtain ⟨moment, -, rfl⟩ := Option.map_eq_some_iff.mp h
      exact ⟨[], (List.append_nil _).symm, rfl, fun _ hpath => absurd hpath List.not_mem_nil⟩
  | sync_activate other =>
    cases h
    exact ⟨[], (List.append_nil _).symm, rfl, fun _ hpath => absurd hpath List.not_mem_nil⟩
  | advance now => exact absurd trivial hcall

/-! ### Runs -/

/-- A tracker keeps what has been activated since the last `advance`, and what has been delayed
    and was not due at any `advance` since. -/
theorem tracks_of_run {calls : List Call} {last : Activations} (h : Run Performs new calls last) :
    (∀ path, path ∈ last.fresh ∨ path ∈ last.rx ↔
      Since (Call.Activates path) (Call.NoAdvance fun _ => True) calls)
    ∧ ∀ item, item ∈ last.queue.items ↔
      Since (Call.Delays item) (Call.NoAdvance fun now => item.1 ≤ now) calls := by
  refine h.invariant (P := fun calls state =>
    (∀ path, path ∈ state.fresh ∨ path ∈ state.rx ↔
      Since (Call.Activates path) (Call.NoAdvance fun _ => True) calls)
    ∧ ∀ item, item ∈ state.queue.items ↔
      Since (Call.Delays item) (Call.NoAdvance fun now => item.1 ≤ now) calls) ⟨?_, ?_⟩ ?_
  · exact fun path => ⟨fun hwaiting => by cases hwaiting <;> contradiction, fun hsince => absurd hsince not_since_nil⟩
  · exact fun item => ⟨fun hqueued => absurd hqueued List.not_mem_nil, fun hsince => absurd hsince not_since_nil⟩
  · rintro calls before call after ⟨hwaiting, hqueued⟩ hperforms
    refine ⟨fun path => ?_, fun item => ?_⟩
    · rw [waiting_of_performs hperforms, hwaiting, since_snoc]
    · rw [queued_of_performs hperforms, hqueued, since_snoc]

/-- What makes a path active is an activation since the last `advance`, or a delayed one. -/
theorem active_iff {calls : List Call} {now : Duration} {path : List ℕ} :
    Active calls now path ↔ Since (Call.Activates path) (Call.NoAdvance fun _ => True) calls ∨
      ∃ moment ≤ now, Since (Call.Delays (moment, path)) (Call.NoAdvance fun now => moment ≤ now) calls := by
  have hcongr : ∀ {holds holds' : Duration → Prop} {other : Call}, (∀ now, holds now ↔ holds' now) →
      (other.NoAdvance holds ↔ other.NoAdvance holds') := by
    intro holds holds' other hholds
    cases other with
    | advance now => exact not_congr (hholds now)
    | _ => exact Iff.rfl
  have hnow : ∀ {call : Call}, call.Activates path → ∀ now, call.Due path now ↔ True :=
    fun hactivates now => iff_true_intro (Or.inl hactivates)
  have hdelayed : ∀ {call : Call} {moment}, call.Delays (moment, path) → ∀ now,
      call.Due path now ↔ moment ≤ now := by
    intro call moment hdelays now
    constructor
    · rintro (hactivates | ⟨other, hle, hother⟩)
      · have hnot : ¬ call.Delays (moment, path) := not_delays_of_activates hactivates
        exact absurd hdelays hnot
      · have heq : other = moment := moment_of_delays hdelays hother
        rwa [heq] at hle
    · exact fun hle => Or.inr ⟨moment, hle, hdelays⟩
  constructor
  · rintro ⟨earlier, call, later, hsplit, hactivates | ⟨moment, hle, hdelays⟩, hlater⟩
    · exact Or.inl ⟨earlier, call, later, hsplit, hactivates,
        fun other hother => (hcongr (hnow hactivates)).mp (hlater other hother)⟩
    · exact Or.inr ⟨moment, hle, earlier, call, later, hsplit, hdelays,
        fun other hother => (hcongr (hdelayed hdelays)).mp (hlater other hother)⟩
  · rintro (⟨earlier, call, later, hsplit, hactivates, hlater⟩ |
      ⟨moment, hle, earlier, call, later, hsplit, hdelays, hlater⟩)
    · exact ⟨earlier, call, later, hsplit, Or.inl hactivates,
        fun other hother => (hcongr (hnow hactivates)).mpr (hlater other hother)⟩
    · exact ⟨earlier, call, later, hsplit, Or.inr ⟨moment, hle, hdelays⟩,
        fun other hother => (hcongr (hdelayed hdelays)).mpr (hlater other hother)⟩

/-- After an `advance` the clean paths are those it has made active, and nothing is fresh. -/
theorem clean_of_advance {calls : List Call} {now : Duration} {last : Activations}
    (h : Run Performs new (calls ++ [.advance now]) last) :
    last.fresh = [] ∧ ∀ path, path ∈ last.paths.take last.clean ↔ Active calls now path := by
  obtain ⟨before, hrun, hadvance⟩ := h.of_snoc
  obtain rfl : before.advance now = last := Option.some.inj hadvance
  obtain ⟨hwaiting, hqueued⟩ := tracks_of_run hrun
  obtain ⟨hpaths, hclean, -, -⟩ := before.advance_spec now
  refine ⟨by rw [fresh, hclean, List.drop_length], fun path => ?_⟩
  rw [hclean, List.take_length, hpaths, ← or_assoc, hwaiting, active_iff]
  refine or_congr Iff.rfl ⟨?_, ?_⟩
  · rintro ⟨⟨moment, _⟩, hitem, hle, rfl⟩
    exact ⟨moment, hle, (hqueued _).mp hitem⟩
  · rintro ⟨moment, hle, hsince⟩
    exact ⟨(moment, path), (hqueued (moment, path)).mpr hsince, hle, rfl⟩

/-- Calls other than `advance` keep the clean paths, and what is fresh they have activated. -/
theorem clean_of_run {calls : List Call} {start last : Activations} (h : Run Performs start calls last)
    (hstart : start.fresh = []) (hnone : ∀ call ∈ calls, call.NoAdvance fun _ => True) :
    last.paths.take last.clean = start.paths.take start.clean
    ∧ ∀ path ∈ last.fresh, ∃ call ∈ calls, call.Activates path := by
  induction h with
  | nil =>
    refine ⟨rfl, fun path hpath => ?_⟩
    rw [hstart] at hpath
    cases hpath
  | @snoc calls middle last call _ hperforms ih =>
    obtain ⟨hkept, hfresh⟩ := ih fun other hother => hnone other (List.mem_append_left _ hother)
    obtain ⟨added, hpaths, hclean, hadded⟩ := appends_of_performs hperforms (hnone call (by simp))
    have hle := middle.clean_le
    rw [← length_paths] at hle
    refine ⟨?_, fun path hpath => ?_⟩
    · rw [hpaths, hclean, List.take_append_of_le_length hle, hkept]
    · rw [fresh, hpaths, hclean, List.drop_append_of_le_length hle] at hpath
      rcases List.mem_append.mp hpath with hold | hnew
      · obtain ⟨other, hother, hactivates⟩ := hfresh path hold
        exact ⟨other, List.mem_append_left _ hother, hactivates⟩
      · exact ⟨call, by simp, hadded path hnew⟩

/-! ### Every activation takes effect once -/

theorem noAdvance_of_mem {calls : List Call} {holds : Duration → Prop}
    (h : ∀ other ∈ calls, other.NoAdvance holds) {now : Duration} (hnow : holds now) :
    Call.advance now ∉ calls :=
  fun hmem => h _ hmem hnow

/-- Two `advance`s of a list, each of which is not before the other, are one. -/
theorem front_unique {calls front front' back back' : List Call} {call call' : Call}
    (h : calls = front ++ call :: back) (h' : calls = front' ++ call' :: back')
    (hnot : call ∉ front') (hnot' : call' ∉ front) : front = front' := by
  rcases List.append_eq_append_iff.mp (h.symm.trans h') with ⟨between, rfl, hrest⟩ | ⟨between, rfl, hrest⟩
  · cases between with
    | nil => exact (List.append_nil _).symm
    | cons first between =>
      obtain ⟨rfl, -⟩ := List.cons.inj hrest
      exact absurd (by simp) hnot
  · cases between with
    | nil => exact List.append_nil _
    | cons first between =>
      obtain ⟨rfl, -⟩ := List.cons.inj hrest
      exact absurd (by simp) hnot'

/-- If an activation is due at some `advance` that comes later, there is exactly one `advance` at
    which it is due for the first time. -/
theorem due_once {call : Call} {path : List ℕ} {rest : List Call} {due : Duration}
    (hdue : call.Due path due) (hmem : Call.advance due ∈ rest) :
    ∃! front, ∃ now back, rest = front ++ .advance now :: back ∧ call.Due path now ∧
      ∀ other ∈ front, other.NoAdvance fun before => call.Due path before := by
  obtain ⟨front, first, back, hrest, hfirst, hfront⟩ :=
    exists_first (Q := Call.NoAdvance fun before => call.Due path before)
      fun hnone => noAdvance_of_mem hnone hdue hmem
  cases first with
  | advance now =>
    refine ⟨front, ⟨now, back, hrest, not_not.mp hfirst, hfront⟩, ?_⟩
    rintro front' ⟨now', back', hrest', hdue', hfront'⟩
    exact front_unique hrest' hrest (noAdvance_of_mem hfront hdue')
      (noAdvance_of_mem hfront' (not_not.mp hfirst))
  | activate path => exact absurd trivial hfirst
  | activate_after path delay elapsed => exact absurd trivial hfirst
  | sync_activate path => exact absurd trivial hfirst

/-- After an `advance` the extensions reported are, each once and in ascending order, those of the
    active paths; whatever else is called until the next one adds to them, and only extensions of
    what it activates.  Each activation makes its path active once, at the first `advance` at
    which it is due. -/
theorem for_extensions_exact {calls later : List Call} {now : Duration} {advanced last : Activations}
    (hadvanced : Run Performs new (calls ++ [.advance now]) advanced)
    (hlater : Run Performs advanced later last)
    (hnone : ∀ call ∈ later, call.NoAdvance fun _ => True) (path : List ℕ) :
    ((advanced.for_extensions path).Pairwise (· < ·)
      ∧ ∀ symbol, symbol ∈ advanced.for_extensions path ↔
        ∃ active, Active calls now active ∧ path ++ [symbol] <+: active)
    ∧ (∃ more, last.for_extensions path = advanced.for_extensions path ++ more ∧
      ∀ symbol ∈ more, ∃ call ∈ later, ∃ active, call.Activates active ∧ path ++ [symbol] <+: active)
    ∧ ∀ (call : Call) (active : List ℕ) (rest : List Call) (due : Duration), call.Due active due →
      Call.advance due ∈ rest →
      ∃! front, ∃ now back, rest = front ++ .advance now :: back ∧ call.Due active now ∧
        ∀ other ∈ front, other.NoAdvance fun before => call.Due active before := by
  obtain ⟨hfresh, hactive⟩ := clean_of_advance hadvanced
  obtain ⟨hkept, hactivated⟩ := clean_of_run hlater hfresh hnone
  obtain ⟨hascending, hsymbols⟩ := advanced.clean_extensions_exact path
  -- without fresh paths nothing is added to the extensions of the clean ones
  have hadvance : advanced.for_extensions path = advanced.clean_extensions path := by
    obtain ⟨more, hmore, hnew⟩ := advanced.for_extensions_eq path
    have hnil : more = [] := by
      rw [List.eq_nil_iff_forall_not_mem]
      intro symbol hsymbol
      obtain ⟨active, hmem, -⟩ := hnew symbol hsymbol
      rw [hfresh] at hmem
      cases hmem
    rw [hmore, hnil, List.append_nil]
  refine ⟨⟨?_, fun symbol => ?_⟩, ?_, fun call active rest due hdue hmem => due_once hdue hmem⟩
  · rw [hadvance]
    exact hascending
  · rw [hadvance, hsymbols]
    exact exists_congr fun active => and_congr_left fun _ => hactive active
  · obtain ⟨more, hmore, hnew⟩ := last.for_extensions_eq path
    refine ⟨more, ?_, fun symbol hsymbol => ?_⟩
    · rw [hmore, hadvance, clean_extensions, clean_extensions, hkept]
    · obtain ⟨active, hmem, hprefix⟩ := hnew symbol hsymbol
      obtain ⟨call, hcall, hactivates⟩ := hactivated active hmem
      exact ⟨call, hcall, active, hactivates, hprefix⟩

/-- A path that is due when it has been delayed for three nanoseconds, beside one that has been
    activated without delay, and one that is activated after the `advance`. -/
theorem for_extensions_exact_example :
    ∃ advanced last,
      Run Performs new ([.activate [1, 2],
        .activate_after [1, 5] ⟨default, 3, by decide⟩ ⟨default, 2, by decide⟩]
        ++ [.advance ⟨default, 5, by decide⟩]) advanced
      ∧ Run Performs advanced [.activate [1, 7]] last
      ∧ advanced.for_extensions [1] = [2, 5]
      ∧ ∃ more, last.for_extensions [1] = advanced.for_extensions [1] ++ more := by
  have hadvanced : ∃ advanced, Run Performs new ([.activate [1, 2],
      .activate_after [1, 5] ⟨default, 3, by decide⟩ ⟨default, 2, by decide⟩]
      ++ [.advance ⟨default, 5, by decide⟩]) advanced ∧ advanced.for_extensions [1] = [2, 5] :=
    ⟨_, ((Run.nil.snoc rfl).snoc rfl).snoc rfl, by decide +kernel⟩
  obtain ⟨advanced, hrun, hextensions⟩ := hadvanced
  have hlater : Run Performs advanced [.activate [1, 7]] (advanced.activate [1, 7]) := Run.nil.snoc rfl
  obtain ⟨-, ⟨more, hmore, -⟩, -⟩ := for_extensions_exact hrun hlater (by simp [Call.NoAdvance]) [1]
  exact ⟨advanced, advanced.activate [1, 7], hrun, hlater, hextensions, more, hmore⟩

end Activations

end Timely
