/-
  Timely/CapabilityRuns.lean
  ==========================
  **Operators and their capabilities** (`timely/src/dataflow/operators/generic/builder_rc.rs`).

  An operator is built with one capability for each output, of whose making the
  batches say nothing.  From then on the logic of the operators makes, moves and
  drops capabilities as it likes, and whenever an operator is scheduled its
  batches move into the progress that it shares with its parent.
-/
import Timely.Capability

set_option linter.unusedSectionVars false

namespace Timely

open Library

variable {T : Type} [PartialOrder T] [DecidableLE T] [DecidableEq T] [Ord T] [LinearExtension T]
  [Timestamp T]

/-! ### Building -/

/-- The part of an operator that accounts for its capabilities: the batches of its outputs, and
    the `internals` of its shared progress. -/
structure OperatorCore (T : Type) [Ord T] where
  internal : List Internal
  internals : List (ChangeBatch T)

/-- Adds a new output, with an empty batch. -/
def new_output (operator : ℕ) (state : List Internal × Cells T) : List Internal × Cells T :=
  (state.1 ++ [⟨operator, state.1.length⟩],
    Function.update state.2 ⟨operator, state.1.length⟩ ChangeBatch.new)

/-- Create the capability for one output, and discard the evidence of its creation. -/
def mint_initial (state : List (Capability T) × Cells T) (internal : Internal) :
    List (Capability T) × Cells T :=
  let minted := mint Timestamp.minimum internal state.2
  (state.1 ++ [minted.1], Function.update minted.2 internal (minted.2 internal).clear)

/-- Build an operator with some outputs: the operator, and its initial capabilities. -/
def build_reschedule (operator outputs : ℕ) (cells : Cells T) :
    OperatorCore T × List (Capability T) × Cells T :=
  let created := (List.range outputs).foldl (fun state _ => new_output operator state)
    (([] : List Internal), cells)
  (⟨created.1, List.replicate outputs ChangeBatch.new⟩,
    created.1.foldl mint_initial ([], created.2))

/-- Move one batch of internal changes; `none` where the shared progress has no such output. -/
def move_batch (state : List (ChangeBatch T) × Cells T) (internal : Internal × ℕ) :
    Option (List (ChangeBatch T) × Cells T) :=
  (state.1[internal.2]?).map fun changes =>
    (state.1.set internal.2 (changes.extend (state.2 internal.1).drain.1),
      Function.update state.2 internal.1 (state.2 internal.1).drain.2)

/-- What scheduling an operator does when its logic has run: its batches of internal changes
    move into the shared progress. -/
def OperatorCore.move_internals (core : OperatorCore T) (cells : Cells T) :
    Option (OperatorCore T × Cells T) :=
  (core.internal.zipIdx.foldlM move_batch (core.internals, cells)).map fun moved =>
    ({ core with internals := moved.1 }, moved.2)

/-! ### A worker -/

/-- The operators of a worker, and all capabilities and sets of capabilities that their logic
    holds. -/
structure Holder (T : Type) [Ord T] where
  operators : List (OperatorCore T)
  cells : Cells T
  held : List (Capability T)
  sets : List (CapabilitySet T)

/-- Where a capability is that a call borrows. -/
inductive Place where
  | held (index : ℕ)
  | element (set index : ℕ)

/-- What the logic of an operator does with its capabilities, which it names by their places. -/
inductive CapabilityCall (T : Type) where
  | delayed (place : Place) (new_time : T)
  | clone (place : Place)
  | downgrade (index : ℕ) (new_time : T)
  | drop (index : ℕ)
  | retain (operator : ℕ) (time : T) (output_port : ℕ)
  | delayed_ref (operator : ℕ) (time new_time : T) (output_port : ℕ)
  | set_new
  | set_from_elem (index : ℕ)
  | set_insert (set index : ℕ)
  | set_delayed (set : ℕ) (time : T)
  | set_downgrade (set : ℕ) (frontier : List T)
  | set_clone (set : ℕ)
  | set_drop (set : ℕ)

/-- A step of a worker; the last two say which changes move. -/
inductive CapabilityEvent (T : Type) where
  | build (outputs : ℕ)
  | perform (call : CapabilityCall T)
  | schedule (operator : ℕ) (moved : List (List (T × ℤ)))
  | extract (operator : ℕ) (extracted : List (List (T × ℤ)))

namespace Holder

/-- A worker without operators. -/
def new : Holder T := ⟨[], fun _ => ChangeBatch.new, [], []⟩

/-- All live capabilities. -/
def live (holder : Holder T) : List (Capability T) :=
  holder.held ++ holder.sets.flatMap CapabilitySet.elements

def build (holder : Holder T) (outputs : ℕ) : Holder T :=
  let built := build_reschedule holder.operators.length outputs holder.cells
  { holder with
    operators := holder.operators ++ [built.1]
    held := holder.held ++ built.2.1
    cells := built.2.2 }

/-- Keep a new capability. -/
def hold (holder : Holder T) (made : Capability T × Cells T) : Holder T :=
  { holder with held := holder.held ++ [made.1], cells := made.2 }

def borrow (holder : Holder T) : Place → Option (Capability T)
  | .held index => holder.held[index]?
  | .element set index => (holder.sets[set]?).bind fun capabilities => capabilities.elements[index]?

/-- One call on a capability, a reference to one, or a set; `none` where it panics, or where
    there is no such object. -/
def perform (holder : Holder T) : CapabilityCall T → Option (Holder T)
  | .delayed place new_time =>
    (holder.borrow place).bind fun capability =>
      (capability.delayed new_time holder.cells).map holder.hold
  | .clone place =>
    (holder.borrow place).map fun capability => holder.hold (capability.clone holder.cells)
  | .downgrade index new_time =>
    (holder.held[index]?).bind fun capability =>
      (capability.downgrade new_time holder.cells).map fun downgraded =>
        { holder with held := holder.held.set index downgraded.1, cells := downgraded.2 }
  | .drop index =>
    (holder.held[index]?).map fun capability =>
      { holder with held := holder.held.eraseIdx index, cells := capability.drop holder.cells }
  | .retain operator time output_port =>
    (holder.operators[operator]?).bind fun core =>
      ((CapabilityRef.mk time core.internal).retain_for_output output_port holder.cells).map
        holder.hold
  | .delayed_ref operator time new_time output_port =>
    (holder.operators[operator]?).bind fun core =>
      ((CapabilityRef.mk time core.internal).delayed_for_output new_time output_port
        holder.cells).map holder.hold
  | .set_new => some { holder with sets := holder.sets ++ [CapabilitySet.new] }
  | .set_from_elem index =>
    (holder.held[index]?).map fun capability =>
      { holder with
        held := holder.held.eraseIdx index
        sets := holder.sets ++ [CapabilitySet.from_elem capability] }
  | .set_insert set index =>
    (holder.sets[set]?).bind fun capabilities =>
      (holder.held[index]?).map fun capability =>
        let inserted := capabilities.insert capability holder.cells
        { holder with
          held := holder.held.eraseIdx index
          sets := holder.sets.set set inserted.1
          cells := inserted.2 }
  | .set_delayed set time =>
    (holder.sets[set]?).bind fun capabilities =>
      (capabilities.delayed time holder.cells).map holder.hold
  | .set_downgrade set frontier =>
    (holder.sets[set]?).bind fun capabilities =>
      (capabilities.downgrade frontier holder.cells).map fun downgraded =>
        { holder with sets := holder.sets.set set downgraded.1, cells := downgraded.2 }
  | .set_clone set =>
    (holder.sets[set]?).map fun capabilities =>
      let cloned := capabilities.clone holder.cells
      { holder with sets := holder.sets ++ [cloned.1], cells := cloned.2 }
  | .set_drop set =>
    (holder.sets[set]?).map fun capabilities =>
      { holder with sets := holder.sets.eraseIdx set, cells := capabilities.drop holder.cells }

end Holder

/-- The steps of a worker, in any order. -/
inductive CapabilityStep : Holder T → CapabilityEvent T → Holder T → Prop
  | build {holder : Holder T} {outputs : ℕ} :
      CapabilityStep holder (.build outputs) (holder.build outputs)
  | perform {holder after : Holder T} {call : CapabilityCall T} :
      holder.perform call = some after → CapabilityStep holder (.perform call) after
  | schedule {holder : Holder T} {operator : ℕ} {core moved : OperatorCore T} {cells : Cells T} :
      holder.operators[operator]? = some core → core.move_internals holder.cells = some (moved, cells) →
      CapabilityStep holder
        (.schedule operator (core.internal.map fun internal => (holder.cells internal).drain.1))
        { holder with operators := holder.operators.set operator moved, cells := cells }
  | extract {holder : Holder T} {operator : ℕ} {core : OperatorCore T} :
      holder.operators[operator]? = some core →
      CapabilityStep holder (.extract operator (core.internals.map fun changes => changes.drain.1))
        { holder with
          operators := holder.operators.set operator
            { core with internals := core.internals.map fun changes => changes.drain.2 } }

/-! ### Calls -/

namespace Holder

/-- The batches that the outputs of the operators refer to. -/
def Refers (holder : Holder T) (internal : Internal) : Prop :=
  ∃ core ∈ holder.operators, internal ∈ core.internal

theorem perm_erase_held (holder : Holder T) {index : ℕ} {capability : Capability T}
    (h : holder.held[index]? = some capability) :
    holder.live.Perm ([capability] ++ { holder with held := holder.held.eraseIdx index }.live) := by
  obtain ⟨hindex, rfl⟩ := List.getElem?_eq_some_iff.mp h
  exact (List.getElem_cons_eraseIdx_perm hindex).symm.append_right _

theorem perm_set_held (holder : Holder T) {index : ℕ} {capability : Capability T}
    (h : holder.held[index]? = some capability) (changed : Capability T) :
    { holder with held := holder.held.set index changed }.live.Perm
      ([changed] ++ { holder with held := holder.held.eraseIdx index }.live) := by
  obtain ⟨hindex, -⟩ := List.getElem?_eq_some_iff.mp h
  exact (List.set_perm_cons_eraseIdx hindex changed).append_right _

theorem perm_erase_set (holder : Holder T) {index : ℕ} {set : CapabilitySet T}
    (h : holder.sets[index]? = some set) :
    holder.live.Perm (set.elements ++ { holder with sets := holder.sets.eraseIdx index }.live) := by
  obtain ⟨hindex, rfl⟩ := List.getElem?_eq_some_iff.mp h
  have hperm := (List.getElem_cons_eraseIdx_perm hindex).symm.flatMap_right CapabilitySet.elements
  refine (hperm.append_left holder.held).trans ?_
  rw [List.flatMap_cons]
  exact List.perm_append_comm_assoc _ _ _

theorem perm_set_set (holder : Holder T) {index : ℕ} {set : CapabilitySet T}
    (h : holder.sets[index]? = some set) (changed : CapabilitySet T) :
    { holder with sets := holder.sets.set index changed }.live.Perm
      (changed.elements ++ { holder with sets := holder.sets.eraseIdx index }.live) := by
  obtain ⟨hindex, -⟩ := List.getElem?_eq_some_iff.mp h
  have hperm := (List.set_perm_cons_eraseIdx hindex changed).flatMap_right CapabilitySet.elements
  refine (hperm.append_left holder.held).trans ?_
  rw [List.flatMap_cons]
  exact List.perm_append_comm_assoc _ _ _

theorem perm_append_set (holder : Holder T) (set : CapabilitySet T) :
    { holder with sets := holder.sets ++ [set] }.live.Perm (set.elements ++ holder.live) := by
  unfold live
  rw [List.flatMap_append, List.flatMap_singleton, ← List.append_assoc]
  exact List.perm_append_comm

theorem accounted_hold {holder : Holder T} {allowed : Internal → Prop} {made : Capability T × Cells T}
    (h : Accounted allowed [] holder.cells [made.1] made.2) :
    Accounted allowed holder.live holder.cells (holder.hold made).live (holder.hold made).cells := by
  refine (h.frame holder.live).perm (List.Perm.refl _) ?_
  exact (List.perm_append_singleton made.1 holder.held).append_right _

theorem mem_live_of_borrow {holder : Holder T} {place : Place} {capability : Capability T}
    (h : holder.borrow place = some capability) : capability ∈ holder.live := by
  cases place with
  | held index => exact List.mem_append_left _ (List.mem_of_getElem? h)
  | element set index =>
    obtain ⟨capabilities, hset, helement⟩ := Option.bind_eq_some_iff.mp h
    exact List.mem_append_right _ (List.mem_flatMap.mpr
      ⟨capabilities, List.mem_of_getElem? hset, List.mem_of_getElem? helement⟩)

/-- Every call is accounted for, and leaves the operators alone. -/
theorem perform_accounted {holder after : Holder T} {call : CapabilityCall T}
    (hlive : ∀ capability ∈ holder.live, holder.Refers capability.internal)
    (h : holder.perform call = some after) :
    after.operators = holder.operators ∧
      Accounted holder.Refers holder.live holder.cells after.live after.cells := by
  have hheld : ∀ {index : ℕ} {capability : Capability T}, holder.held[index]? = some capability →
      holder.Refers capability.internal := fun hindex =>
    hlive _ (List.mem_append_left _ (List.mem_of_getElem? hindex))
  have hset : ∀ {index : ℕ} {set : CapabilitySet T}, holder.sets[index]? = some set →
      ∀ element ∈ set.elements, holder.Refers element.internal := fun hindex element helement =>
    hlive element (List.mem_append_right _
      (List.mem_flatMap.mpr ⟨_, List.mem_of_getElem? hindex, helement⟩))
  cases call with
  | delayed place new_time =>
    obtain ⟨capability, hborrow, hmade⟩ := Option.bind_eq_some_iff.mp h
    obtain ⟨made, hdelayed, rfl⟩ := Option.map_eq_some_iff.mp hmade
    exact ⟨rfl, accounted_hold
      (Capability.accounted_delayed (hlive _ (mem_live_of_borrow hborrow)) hdelayed)⟩
  | clone place =>
    obtain ⟨capability, hborrow, rfl⟩ := Option.map_eq_some_iff.mp h
    exact ⟨rfl, accounted_hold
      (Capability.accounted_clone (hlive _ (mem_live_of_borrow hborrow)) holder.cells)⟩
  | downgrade index new_time =>
    obtain ⟨capability, hindex, hmade⟩ := Option.bind_eq_some_iff.mp h
    obtain ⟨made, hdowngraded, rfl⟩ := Option.map_eq_some_iff.mp hmade
    refine ⟨rfl, ?_⟩
    have haccounted := Capability.accounted_downgrade (hheld hindex) hdowngraded
    exact (haccounted.frame _).perm (perm_erase_held holder hindex) (perm_set_held holder hindex made.1)
  | drop index =>
    obtain ⟨capability, hindex, rfl⟩ := Option.map_eq_some_iff.mp h
    refine ⟨rfl, ?_⟩
    exact ((capability.accounted_drop holder.cells).frame _).perm (perm_erase_held holder hindex)
      (List.Perm.refl _)
  | retain operator time output_port =>
    obtain ⟨core, hoperator, hmade⟩ := Option.bind_eq_some_iff.mp h
    obtain ⟨made, hretained, rfl⟩ := Option.map_eq_some_iff.mp hmade
    refine ⟨rfl, accounted_hold (CapabilityRef.accounted_retain_for_output ?_ hretained)⟩
    exact fun internal hinternal => ⟨core, List.mem_of_getElem? hoperator, hinternal⟩
  | delayed_ref operator time new_time output_port =>
    obtain ⟨core, hoperator, hmade⟩ := Option.bind_eq_some_iff.mp h
    obtain ⟨made, hdelayed, rfl⟩ := Option.map_eq_some_iff.mp hmade
    refine ⟨rfl, accounted_hold (CapabilityRef.accounted_delayed_for_output ?_ hdelayed)⟩
    exact fun internal hinternal => ⟨core, List.mem_of_getElem? hoperator, hinternal⟩
  | set_new =>
    cases h
    exact ⟨rfl, (Accounted.refl holder.live holder.cells).perm (List.Perm.refl _)
      (perm_append_set holder CapabilitySet.new)⟩
  | set_from_elem index =>
    obtain ⟨capability, hindex, rfl⟩ := Option.map_eq_some_iff.mp h
    exact ⟨rfl, (Accounted.refl holder.live holder.cells).perm (List.Perm.refl _)
      ((perm_append_set _ (CapabilitySet.from_elem capability)).trans (perm_erase_held holder hindex).symm)⟩
  | set_insert set index =>
    obtain ⟨capabilities, hcapabilities, hmade⟩ := Option.bind_eq_some_iff.mp h
    obtain ⟨capability, hindex, rfl⟩ := Option.map_eq_some_iff.mp hmade
    refine ⟨rfl, ?_⟩
    -- both the capability and the elements of the set are put into the insertion
    have haccounted : Accounted holder.Refers _ holder.cells _ _ :=
      (capabilities.accounted_insert capability holder.cells).frame
        { holder with held := holder.held.eraseIdx index, sets := holder.sets.eraseIdx set }.live
    refine haccounted.perm ?_
      (perm_set_set { holder with held := holder.held.eraseIdx index } hcapabilities _)
    exact (perm_erase_held holder hindex).trans
      ((perm_erase_set { holder with held := holder.held.eraseIdx index } hcapabilities).append_left [capability])
  | set_delayed set time =>
    obtain ⟨capabilities, hcapabilities, hmade⟩ := Option.bind_eq_some_iff.mp h
    obtain ⟨made, hdelayed, rfl⟩ := Option.map_eq_some_iff.mp hmade
    exact ⟨rfl, accounted_hold (CapabilitySet.accounted_delayed (hset hcapabilities) hdelayed)⟩
  | set_downgrade set frontier =>
    obtain ⟨capabilities, hcapabilities, hmade⟩ := Option.bind_eq_some_iff.mp h
    obtain ⟨made, hdowngraded, rfl⟩ := Option.map_eq_some_iff.mp hmade
    refine ⟨rfl, ?_⟩
    have haccounted := CapabilitySet.accounted_downgrade (hset hcapabilities) hdowngraded
    exact (haccounted.frame _).perm (perm_erase_set holder hcapabilities) (perm_set_set holder hcapabilities made.1)
  | set_clone set =>
    obtain ⟨capabilities, hcapabilities, rfl⟩ := Option.map_eq_some_iff.mp h
    refine ⟨rfl, ?_⟩
    have haccounted := CapabilitySet.accounted_clone (hset hcapabilities) holder.cells
    exact (haccounted.frame holder.live).perm (List.Perm.refl _) (perm_append_set holder _)
  | set_drop set =>
    obtain ⟨capabilities, hcapabilities, rfl⟩ := Option.map_eq_some_iff.mp h
    refine ⟨rfl, ?_⟩
    exact ((capabilities.accounted_drop holder.cells).frame _).perm (perm_erase_set holder hcapabilities)
      (List.Perm.refl _)

end Holder

/-! ### Building and scheduling -/

/-- The references of the outputs of an operator. -/
def outputs_of (operator outputs : ℕ) : List Internal := (List.range outputs).map (Internal.mk operator)

theorem mem_outputs_of {operator outputs : ℕ} {internal : Internal} :
    internal ∈ outputs_of operator outputs ↔ internal.operator = operator ∧ internal.output < outputs := by
  obtain ⟨operator', output⟩ := internal
  simp only [outputs_of, List.mem_map, List.mem_range, Internal.mk.injEq]
  constructor
  · rintro ⟨other, hother, rfl, rfl⟩
    exact ⟨rfl, hother⟩
  · rintro ⟨rfl, houtput⟩
    exact ⟨output, houtput, rfl, rfl⟩

theorem foldl_new_output (operator outputs : ℕ) (cells : Cells T) :
    (List.range outputs).foldl (fun state _ => new_output operator state) ([], cells) =
      (outputs_of operator outputs,
        fun internal => if internal ∈ outputs_of operator outputs then ChangeBatch.new else cells internal) := by
  induction outputs with
  | zero => rfl
  | succ outputs ih =>
    have hlength : (outputs_of operator outputs).length = outputs := by
      unfold outputs_of
      rw [List.length_map, List.length_range]
    have happend : outputs_of operator (outputs + 1) =
        outputs_of operator outputs ++ [⟨operator, outputs⟩] := by
      unfold outputs_of
      rw [List.range_succ, List.map_append, List.map_singleton]
    rw [List.range_succ, List.foldl_append, ih, List.foldl_cons, List.foldl_nil]
    unfold new_output
    rw [hlength, happend]
    refine congrArg (Prod.mk _) (funext fun internal => ?_)
    by_cases hlast : internal = ⟨operator, outputs⟩
    · subst hlast
      simp
    · rw [Function.update_of_ne hlast]
      simp [hlast]

theorem foldl_mint_initial (internals : List Internal) (minted : List (Capability T)) (cells : Cells T) :
    internals.foldl mint_initial (minted, cells) =
      (minted ++ internals.map (Capability.mk Timestamp.minimum),
        fun internal => if internal ∈ internals then ChangeBatch.new else cells internal) := by
  induction internals generalizing minted cells with
  | nil => simp
  | cons first internals ih =>
    refine (ih (minted ++ [⟨Timestamp.minimum, first⟩]) _).trans ?_
    refine Prod.ext ?_ (funext fun internal => ?_)
    · simp
    · by_cases hrest : internal ∈ internals
      · simp [hrest]
      · by_cases hfirst : internal = first
        · subst hfirst
          simp [hrest, mint, ChangeBatch.clear]
        · simp [hrest, hfirst, mint, Cells.update]

/-- A built operator has one capability at the minimum for each output, and empty batches. -/
theorem build_reschedule_eq (operator outputs : ℕ) (cells : Cells T) :
    build_reschedule operator outputs cells =
      (⟨outputs_of operator outputs, List.replicate outputs ChangeBatch.new⟩,
        (outputs_of operator outputs).map (Capability.mk Timestamp.minimum),
        fun internal => if internal ∈ outputs_of operator outputs then ChangeBatch.new else cells internal) := by
  unfold build_reschedule
  rw [foldl_new_output]
  dsimp only
  rw [foldl_mint_initial]
  refine congrArg (Prod.mk _) (congrArg (Prod.mk _) (funext fun internal => ?_))
  by_cases hmember : internal ∈ outputs_of operator outputs
  · simp only [hmember, if_true]
  · simp only [hmember, if_false]

/-- Moving the batches of the first outputs of an operator. -/
theorem foldlM_move_batch {operator outputs : ℕ} {internals : List (ChangeBatch T)} {cells : Cells T}
    {after : List (ChangeBatch T) × Cells T}
    (h : (List.range outputs).foldlM (fun state output => move_batch state (⟨operator, output⟩, output))
      (internals, cells) = some after) :
    after.1.length = internals.length ∧
    (∀ output, after.1[output]? = if output < outputs then
      (internals[output]?).map fun changes => changes.extend (cells ⟨operator, output⟩).drain.1
      else internals[output]?) ∧
    ∀ internal, after.2 internal =
      if internal ∈ outputs_of operator outputs then ChangeBatch.new else cells internal := by
  induction outputs generalizing after with
  | zero =>
    cases h
    exact ⟨rfl, fun _ => rfl, fun _ => rfl⟩
  | succ outputs ih =>
    rw [List.range_succ] at h
    obtain ⟨⟨moved, middle⟩, hmiddle, hmove⟩ := foldlM_concat_cases h
    obtain ⟨hsame, hinternals, hcells⟩ := ih hmiddle
    obtain ⟨changes, hchanges, rfl⟩ := Option.map_eq_some_iff.mp hmove
    obtain ⟨hlength, rfl⟩ := List.getElem?_eq_some_iff.mp hchanges
    -- the batch of this output has not been drained before
    have hnot : (⟨operator, outputs⟩ : Internal) ∉ outputs_of operator outputs := by
      rw [mem_outputs_of]
      exact fun hmember => lt_irrefl _ hmember.2
    have hcell := hcells ⟨operator, outputs⟩
    rw [if_neg hnot] at hcell
    refine ⟨List.length_set.trans hsame, ?_, ?_⟩
    · intro output
      rw [List.getElem?_set]
      by_cases houtput : outputs = output
      · subst houtput
        have hbefore := hinternals outputs
        rw [if_neg (lt_irrefl outputs), hchanges] at hbefore
        rw [if_pos rfl, if_pos hlength, if_pos (Nat.lt_succ_self outputs), ← hbefore, Option.map_some, hcell]
      · rw [if_neg houtput, hinternals]
        apply if_congr _ rfl rfl
        omega
    · intro internal
      by_cases hlastOutput : internal = ⟨operator, outputs⟩
      · subst hlastOutput
        have hmember : (⟨operator, outputs⟩ : Internal) ∈ outputs_of operator (outputs + 1) :=
          mem_outputs_of.mpr ⟨rfl, Nat.lt_succ_self outputs⟩
        rw [if_pos hmember]
        exact Function.update_self _ _ _
      · refine (Function.update_of_ne hlastOutput _ _).trans ?_
        rw [hcells]
        apply if_congr _ rfl rfl
        rw [mem_outputs_of, mem_outputs_of]
        obtain ⟨operator', output⟩ := internal
        have hne : ¬ (operator' = operator ∧ output = outputs) := fun heq =>
          hlastOutput (by rw [heq.1, heq.2])
        constructor
        · exact fun hmember => ⟨hmember.1, hmember.2.trans (Nat.lt_succ_self outputs)⟩
        · exact fun hmember => ⟨hmember.1, lt_of_le_of_ne (Nat.lt_succ_iff.mp hmember.2)
            fun heq => hne ⟨hmember.1, heq⟩⟩

/-- Scheduling empties the batches of the operator into its shared progress. -/
theorem move_internals_eq {core moved : OperatorCore T} {cells cells' : Cells T} {operator outputs : ℕ}
    (hinternal : core.internal = outputs_of operator outputs)
    (h : core.move_internals cells = some (moved, cells')) :
    moved.internal = core.internal ∧ moved.internals.length = core.internals.length ∧
    (∀ output, moved.internals[output]? = if output < outputs then
      (core.internals[output]?).map fun changes => changes.extend (cells ⟨operator, output⟩).drain.1
      else core.internals[output]?) ∧
    ∀ internal, cells' internal =
      if internal ∈ outputs_of operator outputs then ChangeBatch.new else cells internal := by
  obtain ⟨after, hfold, heq⟩ := Option.map_eq_some_iff.mp h
  obtain ⟨rfl, rfl⟩ := Prod.mk.inj heq
  have hpairs : core.internal.zipIdx =
      (List.range outputs).map fun output => (Internal.mk operator output, output) := by
    rw [hinternal]
    unfold outputs_of
    apply List.ext_getElem
    · simp
    · intro output hleft hright
      simp
  rw [hpairs, List.foldlM_map] at hfold
  exact ⟨rfl, foldlM_move_batch hfold⟩

/-! ### Runs -/

/-- The changes that a step moves to one output of the shared progress. -/
def CapabilityEvent.moved (operator output : ℕ) : CapabilityEvent T → List (T × ℤ)
  | .schedule scheduled moved => if scheduled = operator then (moved[output]?).getD [] else []
  | _ => []

/-- The changes that a step takes from one output of the shared progress. -/
def CapabilityEvent.extracted (operator output : ℕ) : CapabilityEvent T → List (T × ℤ)
  | .extract extracting extracted =>
    if extracting = operator then (extracted[output]?).getD [] else []
  | _ => []

def all_moved (events : List (CapabilityEvent T)) (operator output : ℕ) : List (T × ℤ) :=
  events.flatMap (CapabilityEvent.moved operator output)

def all_taken (events : List (CapabilityEvent T)) (operator output : ℕ) : List (T × ℤ) :=
  events.flatMap (CapabilityEvent.extracted operator output)

theorem all_moved_snoc (events : List (CapabilityEvent T)) (event : CapabilityEvent T)
    (operator output : ℕ) : all_moved (events ++ [event]) operator output =
      all_moved events operator output ++ event.moved operator output := by
  simp [all_moved]

theorem all_taken_snoc (events : List (CapabilityEvent T)) (event : CapabilityEvent T)
    (operator output : ℕ) : all_taken (events ++ [event]) operator output =
      all_taken events operator output ++ event.extracted operator output := by
  simp [all_taken]

namespace Holder

/-- The accounts of one output of an operator at one time. -/
structure Settles (events : List (CapabilityEvent T)) (holder : Holder T) (operator output : ℕ)
    (core : OperatorCore T) (time : T) : Prop where
  live : (if time = Timestamp.minimum then 1 else 0) + tally (all_moved events operator output) time +
    (holder.cells ⟨operator, output⟩).value time = holder.live.count ⟨time, ⟨operator, output⟩⟩
  moved : tally (all_moved events operator output) time = tally (all_taken events operator output) time +
    ((core.internals[output]?).getD ChangeBatch.new).value time

/-- What holds of a worker after some steps. -/
structure Exact (events : List (CapabilityEvent T)) (holder : Holder T) : Prop where
  internal : ∀ {operator core}, holder.operators[operator]? = some core →
    core.internal = outputs_of operator core.internals.length
  refers : ∀ capability ∈ holder.live, holder.Refers capability.internal
  unbuilt : ∀ operator, holder.operators.length ≤ operator → ∀ output,
    all_moved events operator output = [] ∧ all_taken events operator output = []
  settles : ∀ {operator core output}, holder.operators[operator]? = some core →
    output < core.internals.length → ∀ time, Settles events holder operator output core time

theorem exact_new : Exact [] (new : Holder T) where
  internal h := by cases h
  refers _ h := by cases h
  unbuilt _ _ _ := ⟨rfl, rfl⟩
  settles h := by cases h

variable {events : List (CapabilityEvent T)} {holder after : Holder T}

theorem Exact.lt_of_refers (h : Exact events holder) {internal : Internal}
    (hrefers : holder.Refers internal) : internal.operator < holder.operators.length := by
  obtain ⟨core, hcore, hinternal⟩ := hrefers
  obtain ⟨operator, hoperator⟩ := List.getElem?_of_mem hcore
  rw [h.internal hoperator, mem_outputs_of] at hinternal
  rw [hinternal.1]
  exact (List.getElem?_eq_some_iff.mp hoperator).1

theorem Exact.perform (h : Exact events holder) {call : CapabilityCall T}
    (hperform : holder.perform call = some after) : Exact (events ++ [.perform call]) after := by
  obtain ⟨hoperators, haccounted⟩ := perform_accounted h.refers hperform
  have hmoved : ∀ operator output,
      all_moved (events ++ [.perform call]) operator output = all_moved events operator output :=
    fun operator output => (all_moved_snoc _ _ _ _).trans (List.append_nil _)
  have htaken : ∀ operator output,
      all_taken (events ++ [.perform call]) operator output = all_taken events operator output :=
    fun operator output => (all_taken_snoc _ _ _ _).trans (List.append_nil _)
  refine ⟨?_, ?_, ?_, ?_⟩
  · intro operator core hcore
    rw [hoperators] at hcore
    exact h.internal hcore
  · intro capability hcapability
    unfold Refers
    rw [hoperators]
    exact haccounted.within h.refers capability hcapability
  · intro operator hoperator output
    rw [hoperators] at hoperator
    rw [hmoved, htaken]
    exact h.unbuilt operator hoperator output
  · intro operator core output hcore houtput time
    rw [hoperators] at hcore
    have hsettles := h.settles hcore houtput time
    have hbalance := haccounted.balance ⟨time, ⟨operator, output⟩⟩
    refine ⟨?_, ?_⟩
    · rw [hmoved]
      have hlive := hsettles.live
      dsimp only at hbalance
      omega
    · rw [hmoved, htaken]
      exact hsettles.moved

theorem count_initial (operator outputs : ℕ) (time : T) (internal : Internal) :
    ((outputs_of operator outputs).map (Capability.mk Timestamp.minimum)).count ⟨time, internal⟩ =
      if time = Timestamp.minimum ∧ internal ∈ outputs_of operator outputs then 1 else 0 := by
  have hnodup : ((outputs_of operator outputs).map (Capability.mk (Timestamp.minimum : T))).Nodup := by
    unfold outputs_of
    rw [List.map_map]
    refine List.nodup_range.map fun first second heq => ?_
    simpa using heq
  by_cases hmember : time = Timestamp.minimum ∧ internal ∈ outputs_of operator outputs
  · obtain ⟨rfl, hinternal⟩ := hmember
    rw [if_pos ⟨rfl, hinternal⟩]
    exact List.count_eq_one_of_mem hnodup (List.mem_map_of_mem hinternal)
  · rw [if_neg hmember]
    apply List.count_eq_zero_of_not_mem
    intro hcapability
    obtain ⟨other, hother, heq⟩ := List.mem_map.mp hcapability
    obtain ⟨rfl, rfl⟩ := Capability.mk.inj heq
    exact hmember ⟨rfl, hother⟩

theorem Exact.build (h : Exact events holder) (outputs : ℕ) :
    Exact (events ++ [.build outputs]) (holder.build outputs) := by
  have hmoved : ∀ operator output,
      all_moved (events ++ [.build outputs]) operator output = all_moved events operator output :=
    fun operator output => (all_moved_snoc _ _ _ _).trans (List.append_nil _)
  have htaken : ∀ operator output,
      all_taken (events ++ [.build outputs]) operator output = all_taken events operator output :=
    fun operator output => (all_taken_snoc _ _ _ _).trans (List.append_nil _)
  have hbuild : holder.build outputs =
      { holder with
        operators := holder.operators ++
          [⟨outputs_of holder.operators.length outputs, List.replicate outputs ChangeBatch.new⟩]
        held := holder.held ++
          (outputs_of holder.operators.length outputs).map (Capability.mk Timestamp.minimum)
        cells := fun internal => if internal ∈ outputs_of holder.operators.length outputs then
          ChangeBatch.new else holder.cells internal } := by
    unfold Holder.build
    rw [build_reschedule_eq]
  have hcount : ∀ time internal, (holder.build outputs).live.count ⟨time, internal⟩ =
      holder.live.count ⟨time, internal⟩ + if time = Timestamp.minimum ∧
        internal ∈ outputs_of holder.operators.length outputs then 1 else 0 := by
    intro time internal
    rw [hbuild, ← count_initial]
    unfold live
    simp only [List.count_append]
    omega
  have hcases : ∀ {operator core}, (holder.build outputs).operators[operator]? = some core →
      holder.operators[operator]? = some core ∨ (operator = holder.operators.length ∧
        core = ⟨outputs_of holder.operators.length outputs, List.replicate outputs ChangeBatch.new⟩) := by
    intro operator core hcore
    rw [hbuild] at hcore
    rcases Nat.lt_trichotomy operator holder.operators.length with hlt | rfl | hgt
    · rw [List.getElem?_append_left hlt] at hcore
      exact Or.inl hcore
    · rw [List.getElem?_concat_length] at hcore
      exact Or.inr ⟨rfl, (Option.some.inj hcore).symm⟩
    · rw [List.getElem?_eq_none (by simp; omega)] at hcore
      cases hcore
  refine ⟨?_, ?_, ?_, ?_⟩
  · intro operator core hcore
    rcases hcases hcore with hold | ⟨rfl, rfl⟩
    · exact h.internal hold
    · rw [List.length_replicate]
  · intro capability hcapability
    have hpositive := List.count_pos_iff.mpr hcapability
    rw [hcount capability.time capability.internal] at hpositive
    by_cases hold : capability ∈ holder.live
    · obtain ⟨core, hcore, hinternal⟩ := h.refers capability hold
      rw [hbuild]
      exact ⟨core, List.mem_append_left _ hcore, hinternal⟩
    · rw [List.count_eq_zero_of_not_mem hold, zero_add] at hpositive
      split at hpositive
      case isTrue hnew =>
        rw [hbuild]
        exact ⟨_, List.mem_append_right _ (List.mem_singleton_self _), hnew.2⟩
      case isFalse => cases hpositive
  · intro operator hoperator output
    rw [hmoved, htaken]
    refine h.unbuilt operator (le_trans ?_ hoperator) output
    rw [hbuild, List.length_append]
    exact Nat.le_add_right _ _
  · intro operator core output hcore houtput time
    rcases hcases hcore with hold | ⟨rfl, rfl⟩
    · have hsettles := h.settles hold houtput time
      have hnot : (⟨operator, output⟩ : Internal) ∉ outputs_of holder.operators.length outputs := by
        rw [mem_outputs_of]
        exact fun hmember => absurd hmember.1 (List.getElem?_eq_some_iff.mp hold).1.ne
      refine ⟨?_, ?_⟩
      · have hsame : (holder.build outputs).live.count ⟨time, ⟨operator, output⟩⟩ =
            holder.live.count ⟨time, ⟨operator, output⟩⟩ := by
          rw [hcount, if_neg fun hnew => hnot hnew.2, add_zero]
        rw [hmoved, hsame, hbuild]
        dsimp only
        rw [if_neg hnot]
        exact hsettles.live
      · rw [hmoved, htaken]
        exact hsettles.moved
    · -- the new operator: nothing has moved, and no older capability is for it
      rw [List.length_replicate] at houtput
      have hmember : (⟨holder.operators.length, output⟩ : Internal) ∈
          outputs_of holder.operators.length outputs := mem_outputs_of.mpr ⟨rfl, houtput⟩
      have hzero : holder.live.count ⟨time, ⟨holder.operators.length, output⟩⟩ = 0 :=
        List.count_eq_zero_of_not_mem fun hlive =>
          absurd (h.lt_of_refers (h.refers _ hlive)) (lt_irrefl _)
      obtain ⟨hnone, hnone'⟩ := h.unbuilt holder.operators.length le_rfl output
      refine ⟨?_, ?_⟩
      · rw [hmoved, hnone, hcount, hzero, hbuild]
        simp [hmember]
      · rw [hmoved, htaken, hnone, hnone']
        simp [houtput]

/-- Replacing an operator by one with the same outputs. -/
theorem Exact.set_operator (h : Exact events holder) {operator : ℕ} {core changed : OperatorCore T}
    {cells : Cells T} {event : CapabilityEvent T} (hcore : holder.operators[operator]? = some core)
    (hinternal : changed.internal = core.internal)
    (hlength : changed.internals.length = core.internals.length)
    (hother : ∀ other, other ≠ operator → ∀ output,
      event.moved other output = [] ∧ event.extracted other output = [] ∧
        cells ⟨other, output⟩ = holder.cells ⟨other, output⟩)
    (hsettles : ∀ output < core.internals.length, ∀ time, Settles events holder operator output core time →
      Settles (events ++ [event])
        { holder with operators := holder.operators.set operator changed, cells := cells }
        operator output changed time) :
    Exact (events ++ [event])
      { holder with operators := holder.operators.set operator changed, cells := cells } := by
  have hbound := (List.getElem?_eq_some_iff.mp hcore).1
  refine ⟨?_, ?_, ?_, ?_⟩
  · intro other core' hcore'
    rw [List.getElem?_set] at hcore'
    by_cases heq : operator = other
    · subst heq
      rw [if_pos rfl, if_pos hbound] at hcore'
      cases hcore'
      rw [hinternal, hlength]
      exact h.internal hcore
    · rw [if_neg heq] at hcore'
      exact h.internal hcore'
  · intro capability hcapability
    obtain ⟨core', hcore', hrefers⟩ := h.refers capability hcapability
    obtain ⟨other, hget⟩ := List.getElem?_of_mem hcore'
    by_cases heq : operator = other
    · subst heq
      obtain rfl := Option.some.inj (hcore.symm.trans hget)
      exact ⟨changed, List.mem_set hbound changed, by rwa [hinternal]⟩
    · refine ⟨core', List.mem_of_getElem? (i := other) ?_, hrefers⟩
      rw [List.getElem?_set, if_neg heq]
      exact hget
  · intro other hge output
    rw [List.length_set] at hge
    have hne : other ≠ operator := fun heq => absurd hbound (Nat.not_lt.mpr (heq ▸ hge))
    rw [all_moved_snoc, all_taken_snoc, (hother other hne output).1, (hother other hne output).2.1,
      List.append_nil, List.append_nil]
    exact h.unbuilt other hge output
  · intro other core' output hcore' houtput time
    rw [List.getElem?_set] at hcore'
    by_cases heq : operator = other
    · subst heq
      rw [if_pos rfl, if_pos hbound] at hcore'
      cases hcore'
      rw [hlength] at houtput
      exact hsettles output houtput time (h.settles hcore houtput time)
    · rw [if_neg heq] at hcore'
      obtain ⟨hmoved, htaken, hcell⟩ := hother other (Ne.symm heq) output
      have hbefore := h.settles hcore' houtput time
      refine ⟨?_, ?_⟩
      · rw [all_moved_snoc, hmoved, List.append_nil]
        dsimp only
        rw [hcell]
        exact hbefore.live
      · rw [all_moved_snoc, hmoved, List.append_nil, all_taken_snoc, htaken, List.append_nil]
        exact hbefore.moved

theorem Exact.schedule (h : Exact events holder) {operator : ℕ} {core moved : OperatorCore T}
    {cells : Cells T} (hcore : holder.operators[operator]? = some core)
    (hmove : core.move_internals holder.cells = some (moved, cells)) :
    Exact (events ++ [.schedule operator
        (core.internal.map fun internal => (holder.cells internal).drain.1)])
      { holder with operators := holder.operators.set operator moved, cells := cells } := by
  obtain ⟨hinternal, hlength, hinternals, hcells⟩ := move_internals_eq (h.internal hcore) hmove
  refine h.set_operator hcore hinternal hlength ?_ ?_
  · intro other hother output
    refine ⟨if_neg (Ne.symm hother), rfl, ?_⟩
    rw [hcells, if_neg]
    rw [mem_outputs_of]
    exact fun hmember => hother hmember.1
  · intro output houtput time hsettles
    have hmember : (⟨operator, output⟩ : Internal) ∈ outputs_of operator core.internals.length :=
      mem_outputs_of.mpr ⟨rfl, houtput⟩
    have hdrained : ((core.internal.map fun internal => (holder.cells internal).drain.1)[output]?).getD [] =
        (holder.cells ⟨operator, output⟩).drain.1 := by
      rw [h.internal hcore]
      unfold outputs_of
      simp [houtput]
    have hmoved : tally (all_moved (events ++ [.schedule operator
        (core.internal.map fun internal => (holder.cells internal).drain.1)]) operator output) time =
        tally (all_moved events operator output) time +
          (holder.cells ⟨operator, output⟩).value time := by
      rw [all_moved_snoc, CapabilityEvent.moved, if_pos rfl, hdrained, tally_append]
      exact congrArg _ (ChangeBatch.tally_compact _ time)
    refine ⟨?_, ?_⟩
    · rw [hmoved]
      dsimp only
      rw [hcells, if_pos hmember, ChangeBatch.value_new, add_zero, ← add_assoc]
      exact hsettles.live
    · rw [hmoved, hsettles.moved, all_taken_snoc, hinternals, if_pos houtput,
        List.getElem?_eq_getElem houtput]
      simp only [CapabilityEvent.extracted, List.append_nil, Option.map_some, Option.getD_some,
        ChangeBatch.value_extend, add_assoc]
      exact congrArg _ (congrArg _ (ChangeBatch.tally_compact _ time).symm)

theorem Exact.extract (h : Exact events holder) {operator : ℕ} {core : OperatorCore T}
    (hcore : holder.operators[operator]? = some core) :
    Exact (events ++ [.extract operator (core.internals.map fun changes => changes.drain.1)])
      { holder with
        operators := holder.operators.set operator
          { core with internals := core.internals.map fun changes => changes.drain.2 } } := by
  refine h.set_operator hcore rfl (List.length_map _) ?_ ?_
  · exact fun other hother output => ⟨rfl, if_neg (Ne.symm hother), rfl⟩
  · intro output houtput time hsettles
    refine ⟨?_, ?_⟩
    · rw [all_moved_snoc]
      simp only [CapabilityEvent.moved, List.append_nil]
      exact hsettles.live
    · rw [all_moved_snoc, all_taken_snoc]
      simp only [CapabilityEvent.moved, CapabilityEvent.extracted, List.append_nil, if_true,
        List.getElem?_map, List.getElem?_eq_getElem houtput, Option.map_some, Option.getD_some,
        tally_append]
      have hmoved := hsettles.moved
      rw [List.getElem?_eq_getElem houtput, Option.getD_some] at hmoved
      rw [hmoved, add_assoc]
      refine congrArg _ ?_
      exact ((ChangeBatch.tally_compact _ time).symm.trans (add_zero _).symm)

theorem Exact.of_run (hrun : Run CapabilityStep new events after) : Exact events after := by
  refine hrun.invariant (P := Exact) exact_new ?_
  intro labels before event next hbefore hstep
  cases hstep with
  | build => exact hbefore.build _
  | perform hperform => exact hbefore.perform hperform
  | schedule hcore hmove => exact hbefore.schedule hcore hmove
  | extract hcore => exact hbefore.extract hcore

/-- Capability accounting is exact: the initial capability, all changes moved to the shared progress
    and those still buffered add up to the live capabilities, and what has moved is what the parent
    has taken and what still waits for it. -/
theorem capabilities_exact (hrun : Run CapabilityStep new events holder) {operator output : ℕ}
    {core : OperatorCore T} (hcore : holder.operators[operator]? = some core)
    (houtput : output < core.internals.length) (time : T) :
    ((if time = Timestamp.minimum then 1 else 0) + tally (all_moved events operator output) time +
      (holder.cells ⟨operator, output⟩).value time = holder.live.count ⟨time, ⟨operator, output⟩⟩) ∧
    tally (all_moved events operator output) time = tally (all_taken events operator output) time +
      ((core.internals[output]?).getD ChangeBatch.new).value time :=
  ⟨((Exact.of_run hrun).settles hcore houtput time).live,
    ((Exact.of_run hrun).settles hcore houtput time).moved⟩

/-- A worker whose only operator delays its capability, puts it into a set and downgrades the set. -/
def example_calls : List (CapabilityCall (Unsigned 64)) :=
  [.delayed (.held 0) 7, .set_from_elem 0, .set_downgrade 0 [5]]

theorem example_calls_perform : (example_calls.foldlM perform ((new : Holder (Unsigned 64)).build 1)).isSome := by
  decide

def example_holder : Holder (Unsigned 64) :=
  (example_calls.foldlM perform ((new : Holder (Unsigned 64)).build 1)).get example_calls_perform

theorem run_of_calls {calls : List (CapabilityCall T)} {last : Holder T}
    (hrun : Run CapabilityStep new events holder) (h : calls.foldlM perform holder = some last) :
    Run CapabilityStep new (events ++ calls.map CapabilityEvent.perform) last := by
  induction calls generalizing holder events with
  | nil =>
    cases h
    rwa [List.map_nil, List.append_nil]
  | cons call calls ih =>
    obtain ⟨next, hnext, hlast⟩ := foldlM_cons_cases h
    rw [List.map_cons, List.append_cons]
    exact ih (hrun.snoc (CapabilityStep.perform hnext)) hlast

/-- When the operator is scheduled, the minimum is taken back and two later times are reported. -/
theorem capabilities_exact_example : ∃ events, ∃ holder : Holder (Unsigned 64),
    Run CapabilityStep new events holder ∧ tally (all_moved events 0 0) 7 = 1 ∧
      holder.live.count ⟨7, ⟨0, 0⟩⟩ = 1 := by
  have hcore : example_holder.operators[0]? = some ⟨[⟨0, 0⟩], [ChangeBatch.new]⟩ := by rfl
  have hmoves : (OperatorCore.move_internals ⟨[⟨0, 0⟩], [ChangeBatch.new]⟩
      example_holder.cells).isSome := by rfl
  obtain ⟨⟨moved, cells⟩, hmove⟩ := Option.isSome_iff_exists.mp hmoves
  have hperform : example_calls.foldlM perform ((new : Holder (Unsigned 64)).build 1) =
      some example_holder := (Option.some_get example_calls_perform).symm
  have hrun := (run_of_calls (Run.nil.snoc CapabilityStep.build) hperform).snoc
    (CapabilityStep.schedule hcore hmove)
  have hinternal : (⟨[⟨0, 0⟩], [ChangeBatch.new]⟩ : OperatorCore (Unsigned 64)).internal =
      outputs_of 0 1 := rfl
  obtain ⟨-, hlength, -, hcells⟩ := move_internals_eq hinternal hmove
  have houtput : 0 < moved.internals.length := by
    rw [hlength]
    decide
  have hoperator : (example_holder.operators.set 0 moved)[0]? = some moved := rfl
  obtain ⟨hlive, -⟩ := capabilities_exact hrun hoperator houtput 7
  have hmoved : tally (all_moved ([CapabilityEvent.build 1] ++ example_calls.map CapabilityEvent.perform ++
      [.schedule 0 ([(⟨0, 0⟩ : Internal)].map fun internal => (example_holder.cells internal).drain.1)])
      0 0) 7 = 1 := by decide
  have hempty : cells ⟨0, 0⟩ = ChangeBatch.new := hcells ⟨0, 0⟩
  have hcount : ((example_holder.live.count ⟨7, ⟨0, 0⟩⟩ : ℕ) : ℤ) = 1 := by
    refine hlive.symm.trans ?_
    dsimp only
    rw [List.nil_append, hmoved, hempty]
    rfl
  exact ⟨_, _, hrun, hmoved, Int.ofNat_inj.mp hcount⟩

end Holder

end Timely
