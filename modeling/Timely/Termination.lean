/-
  Timely/Termination.lean
  =======================
  **`propagate_all` returns.**

  An iteration replaces the worklist entries of one time and location by entries
  that each come later: at a later time, or at the same time and a location of
  higher rank.  With finitely many times and a bounded rank such replacements
  cannot go on, by the multiset order on what is left of the two.  The indices
  the source uses exist as long as every location on the worklist does.
-/
import Timely.Propagate
import Mathlib.Data.Multiset.DershowitzManna
import Mathlib.Data.Prod.Lex
import Mathlib.Data.Fintype.Order
import Mathlib.Order.OrderDual

set_option linter.unusedSectionVars false

namespace Timely

open Library

variable {S T : Type} [PartialOrder T] [DecidableLE T] [DecidableEq T] [Ord T] [LinearExtension T]
  [PathSummary S T]

namespace Tracker

/-! ### Indices exist -/

/-- Every location on the worklist has a port. -/
def Located (tracker : Tracker S T) : Prop :=
  ∀ entry ∈ tracker.worklist.entries, tracker.builder.has_location entry.1.2 = true

/-- Every location has summaries to existing outputs only. -/
def Fits (tracker : Tracker S T) : Prop :=
  ∀ location, (tracker.summaries_at location).length ≤ tracker.output_changes.length

/-- Every buffered update is at a location of the graph. -/
structure BufferedLocated (tracker : Tracker S T) : Prop where
  targets : ∀ change ∈ tracker.target_changes.updates,
    tracker.builder.has_location (Location.from_target change.1.1) = true
  sources : ∀ change ∈ tracker.source_changes.updates,
    tracker.builder.has_location (Location.from_source change.1.1) = true

theorem exists_project_change (change : T × ℤ) {summaries : List (Antichain S)}
    {output_changes : List (ChangeBatch T)} (h : summaries.length ≤ output_changes.length) :
    ∃ projected, project_change change summaries output_changes = some projected ∧
      projected.length = output_changes.length := by
  induction summaries generalizing output_changes with
  | nil => exact ⟨output_changes, by cases output_changes <;> rfl, rfl⟩
  | cons summary summaries ih =>
    cases output_changes with
    | nil => simp at h
    | cons output output_changes =>
      obtain ⟨projected, hprojected, hlength⟩ := ih (by simpa using h)
      refine ⟨_, by rw [project_change, hprojected]; rfl, ?_⟩
      simp [hlength]

theorem exists_project_changes (changes : List (T × ℤ)) {summaries : List (Antichain S)}
    {output_changes : List (ChangeBatch T)} (h : summaries.length ≤ output_changes.length) :
    ∃ projected, project_changes changes summaries output_changes = some projected ∧
      projected.length = output_changes.length := by
  refine exists_foldlM (P := fun middle : List (ChangeBatch T) =>
    middle.length = output_changes.length) rfl ?_
  intro before change _ hbefore
  obtain ⟨after, hafter, hlength⟩ := exists_project_change change (h.trans_eq hbefore.symm)
  exact ⟨after, hafter, hlength.trans hbefore⟩

theorem length_of_project_changes {changes : List (T × ℤ)} {summaries : List (Antichain S)}
    {output_changes projected : List (ChangeBatch T)}
    (hfits : summaries.length ≤ output_changes.length)
    (h : project_changes changes summaries output_changes = some projected) :
    projected.length = output_changes.length := by
  obtain ⟨other, hother, hlength⟩ := exists_project_changes changes hfits
  rw [h, Option.some.injEq] at hother
  rw [hother, hlength]

theorem Seeded.fits {tracker after : Tracker S T} {location : Location}
    {changes : List (T × ℤ)} (hfits : tracker.Fits)
    (h : Seeded tracker location changes after) : after.Fits := by
  intro other
  rw [h.summaries other, length_of_project_changes (hfits location) h.outputs]
  exact hfits other

theorem Seeded.located {tracker after : Tracker S T} {location : Location}
    {changes : List (T × ℤ)} (hlocated : tracker.Located)
    (h : Seeded tracker location changes after) : after.Located := by
  intro entry hentry
  rw [h.builder]
  rcases List.mem_append.mp (h.worklist.mem_iff.mp hentry) with hmem | hmem
  · obtain ⟨change, _, rfl⟩ := List.mem_map.mp hmem
    exact h.exists_port
  · exact hlocated entry hmem

theorem exists_apply_change {tracker : Tracker S T} (hfits : tracker.Fits) {location : Location}
    (hlocation : tracker.builder.has_location location = true) (update : T × ℤ) :
    ∃ after, tracker.apply_change location update = some after := by
  obtain ⟨port, hport⟩ := Option.isSome_iff_exists.mp ((tracker.port_isSome location).mpr hlocation)
  have hlength := hfits location
  rw [summaries_at_of_port hport] at hlength
  obtain ⟨outputs, houtputs, _⟩ :=
    exists_project_changes (port.pointstamps.update_iter [update]).1 hlength
  apply Option.isSome_iff_exists.mp
  unfold apply_change
  simp only [hport]
  rw [foldlM_record_change, Option.isSome_map]
  change (project_changes _ _ tracker.output_changes).isSome
  rw [houtputs]
  rfl

/-- Step 1 does not panic on updates at locations of the graph. -/
theorem exists_apply_changes (updates : List (Location × T × ℤ)) {tracker : Tracker S T}
    (hbalanced : tracker.Balanced) (hfits : tracker.Fits) (hlocated : tracker.Located)
    (hupdates : ∀ update ∈ updates, tracker.builder.has_location update.1 = true) :
    ∃ after, apply_changes updates tracker = some after ∧ after.Fits ∧ after.Located := by
  have hfold : ∃ after, apply_changes updates tracker = some after ∧ after.builder = tracker.builder ∧
      after.Balanced ∧ after.Fits ∧ after.Located := by
    refine exists_foldlM (P := fun after : Tracker S T => after.builder = tracker.builder ∧
      after.Balanced ∧ after.Fits ∧ after.Located) ⟨rfl, hbalanced, hfits, hlocated⟩ ?_
    rintro before update hupdate ⟨hbuilder, hbefore, hroom, hwithin⟩
    obtain ⟨after, hafter⟩ := exists_apply_change hroom (hbuilder ▸ hupdates update hupdate) update.2
    obtain ⟨changes, happlied⟩ := applied_of_apply_change hbefore.toSettled hafter
    exact ⟨after, hafter, happlied.builder.trans hbuilder, happlied.balanced hbefore,
      happlied.fits hroom, happlied.located hwithin⟩
  obtain ⟨after, hafter, -, -, hkept⟩ := hfold
  exact ⟨after, hafter, hkept⟩

/-- Where every step ends at a location of the graph the worklist stays within the graph. -/
theorem Circulated.located {tracker after : Tracker S T} {entry : (T × Location) × ℤ}
    {rest : Worklist (T × Location)} {changes : List (T × ℤ)}
    (hlast : ∀ {first last : Location} {time result : T},
      Builder.Arc tracker.builder first time last result → tracker.builder.has_location last = true)
    (hlocated : tracker.Located) (hpopped : tracker.worklist.Popped entry rest)
    (h : Circulated tracker entry rest changes after) : after.Located := by
  intro sent hsent
  rw [h.builder]
  rcases List.mem_append.mp (h.worklist.mem_iff.mp hsent) with hmem | hmem
  · obtain ⟨change, _, hnext, _⟩ := mem_scatter.mp hmem
    exact hlast (Builder.mem_implied.mp hnext)
  · obtain ⟨merged, _, hsplit, _⟩ := hpopped.split
    exact hlocated sent (by rw [hsplit]; simp [hmem])

/-- The entry that is taken from the worklist is at a location of the graph. -/
theorem Located.popped {tracker : Tracker S T} (h : tracker.Located) {entry : (T × Location) × ℤ}
    {rest : Worklist (T × Location)} (hpopped : tracker.worklist.Popped entry rest) :
    tracker.builder.has_location entry.1.2 = true := by
  obtain ⟨merged, hnonempty, hsplit, hkeys⟩ := hpopped.split
  obtain ⟨first, others, rfl⟩ := List.exists_cons_of_ne_nil hnonempty
  have hfirst := h first (by rw [hsplit]; simp)
  rwa [hkeys first (by simp)] at hfirst

theorem exists_circulate_step {tracker : Tracker S T} {entry : (T × Location) × ℤ}
    (rest : Worklist (T × Location)) (hlocation : tracker.builder.has_location entry.1.2 = true) :
    ∃ after, tracker.circulate_step entry rest = some after := by
  obtain ⟨port, hport⟩ := Option.isSome_iff_exists.mp ((tracker.port_isSome _).mpr hlocation)
  unfold circulate_step
  split
  · exact ⟨_, rfl⟩
  · simp only [hport]
    exact ⟨_, rfl⟩

/-! ### The worklist shrinks -/

/-- What is left of an entry: how far its time is from the last, and its location from the
    highest rank. -/
def remaining (rank : Location → ℕ) (bound : ℕ) (key : T × Location) : Tᵒᵈ ×ₗ ℕ :=
  toLex (OrderDual.toDual key.1, bound - rank key.2)

/-- What is left of all entries. -/
def measure (rank : Location → ℕ) (bound : ℕ) (tracker : Tracker S T) : Multiset (Tᵒᵈ ×ₗ ℕ) :=
  (tracker.worklist.entries.map fun entry => remaining rank bound entry.1 : List (Tᵒᵈ ×ₗ ℕ))

section Ranked

variable [DecidableEq S] [AdvancingSummary S T] {rank : Location → ℕ} {bound : ℕ}

/-- A step from a time no earlier has less left. -/
theorem remaining_lt_of_arc {builder : Builder S} (hranked : builder.Ranked rank bound)
    {first last : Location} {time start result : T} (hle : time ≤ start)
    (harc : Builder.Arc builder first start last result) :
    remaining rank bound (result, last) < remaining rank bound (time, first) := by
  unfold remaining
  rw [Prod.Lex.toLex_lt_toLex]
  rcases Builder.Arc.default_or_lt harc with ⟨hdefault, rfl⟩ | hlt
  · have hrank := hranked.lt_of_arc hdefault
    have hbound := hranked.le_bound last
    rcases eq_or_lt_of_le hle with rfl | hlt
    · exact Or.inr ⟨rfl, by simp only; omega⟩
    · exact Or.inl (OrderDual.toDual_lt_toDual.mpr hlt)
  · exact Or.inl (OrderDual.toDual_lt_toDual.mpr (lt_of_le_of_lt hle hlt))

/-- An iteration replaces entries by entries that have less left. -/
theorem Circulated.measure_lt {tracker after : Tracker S T} {entry : (T × Location) × ℤ}
    {rest : Worklist (T × Location)} {changes : List (T × ℤ)}
    (hsettled : ∀ location, (tracker.implications_at location).Settled)
    (hranked : tracker.builder.Ranked rank bound) (hpopped : tracker.worklist.Popped entry rest)
    (h : Circulated tracker entry rest changes after) :
    Multiset.IsDershowitzMannaLT (after.measure rank bound) (tracker.measure rank bound) := by
  obtain ⟨merged, hnonempty, hsplit, hkeys⟩ := hpopped.split
  let left := fun update : (T × Location) × ℤ => remaining rank bound update.1
  refine ⟨(rest.entries.map left : List _),
    ((scatter (tracker.builder.implied entry.1.2) changes).map left : List _),
    (merged.map left : List _), ?_, ?_, ?_, ?_⟩
  · simpa using hnonempty
  · unfold measure
    rw [Multiset.coe_eq_coe.mpr (h.worklist.map _), List.map_append, ← Multiset.coe_add, add_comm]
  · unfold measure
    rw [hsplit, List.map_append, ← Multiset.coe_add, add_comm]
  · intro lower hlower
    obtain ⟨sent, hsent, rfl⟩ := List.mem_map.mp (Multiset.mem_coe.mp hlower)
    obtain ⟨popped, others, rfl⟩ := List.exists_cons_of_ne_nil hnonempty
    refine ⟨left popped, Multiset.mem_coe.mpr (by simp), ?_⟩
    obtain ⟨change, hchange, hnext, _⟩ := mem_scatter.mp hsent
    have hle : entry.1.1 ≤ change.1 :=
      h.updated.le_of_mem_changes (hsettled _) hchange
    change remaining rank bound sent.1 < remaining rank bound popped.1
    rw [hkeys popped (by simp)]
    exact remaining_lt_of_arc hranked hle (Builder.mem_implied.mp hnext)

/-- Step 2 ends. -/
theorem exists_circulate [Finite T] {tracker : Tracker S T} (hsupported : tracker.Supported)
    (hranked : tracker.builder.Ranked rank bound) (hlocated : tracker.Located) :
    ∃ fuel after, circulate fuel tracker = some after := by
  have hwf := Multiset.wellFounded_isDershowitzMannaLT (α := Tᵒᵈ ×ₗ ℕ)
  generalize hmeasure : tracker.measure rank bound = size
  induction size using hwf.induction generalizing tracker with
  | _ size ih =>
    subst hmeasure
    cases hnext : tracker.worklist.next with
    | none => exact ⟨0, tracker, by rw [circulate, hnext]; rfl⟩
    | some popped =>
      obtain ⟨entry, rest⟩ := popped
      have hpopped := Worklist.popped_of_next hnext
      obtain ⟨middle, hmiddle⟩ := exists_circulate_step rest (hlocated.popped hpopped)
      obtain ⟨changes, hcirculated⟩ := circulated_of_circulate_step hsupported.implications hmiddle
      obtain ⟨fuel, after, hafter⟩ := ih _
        (hcirculated.measure_lt hsupported.implications hranked hpopped)
        (hcirculated.supported hsupported hpopped) (by rwa [hcirculated.builder])
        (hcirculated.located hranked.has_last hlocated hpopped) rfl
      refine ⟨fuel + 1, after, ?_⟩
      rw [circulate, hnext]
      simp only [hmiddle, Option.bind_some]
      exact hafter

end Ranked

end Tracker

end Timely
