/-
  Timely/GenericCapabilities.lean
  ===============================
  **Calls on capabilities are acts of an operator**
  (`timely/src/dataflow/operators/capability.rs`).

  Whatever is called on capabilities, on references to capabilities and on sets, the
  live capabilities change in the few ways that an operator is allowed: one comes of
  another that is no later, or of a message that has been seen, or one is dropped.
-/
import Timely.GenericOperator
import Timely.Interface

set_option linter.unusedSectionVars false

namespace Timely

open Library

variable {S T : Type} [PartialOrder T] [DecidableLE T] [DecidableEq T] [Ord T] [LinearExtension T]
  [Timestamp T] [PathSummary S T]

/-! ### Holdings of live capabilities -/

/-- How many capabilities for an output at a time are among some. -/
def held_in (capabilities : List (Capability T)) (output : ℕ) (time : T) : ℤ :=
  (capabilities.count ⟨time, ⟨0, output⟩⟩ : ℤ)

theorem held_in_cons (capability : Capability T) (h : capability.internal.operator = 0)
    (rest : List (Capability T)) :
    held_in (capability :: rest) = held_in rest + at_port capability.internal.output capability.time 1 := by
  obtain ⟨time, operator, output⟩ := capability
  obtain rfl : operator = 0 := h
  funext other later
  unfold held_in at_port
  rw [List.count_cons, Pi.add_apply, Pi.add_apply]
  by_cases hsame : other = output ∧ later = time
  · obtain ⟨rfl, rfl⟩ := hsame
    simp
  · have hne : ¬ ((⟨time, ⟨0, output⟩⟩ : Capability T) = ⟨later, ⟨0, other⟩⟩) := by
      intro heq
      cases heq
      exact hsame ⟨rfl, rfl⟩
    simp [hsame, hne]

theorem held_in_perm {capabilities other : List (Capability T)} (h : capabilities.Perm other) :
    held_in capabilities = held_in other := by
  funext output time
  unfold held_in
  rw [h.count_eq]

theorem held_in_pos {capabilities : List (Capability T)} {capability : Capability T}
    (h : capability ∈ capabilities) (hoperator : capability.internal.operator = 0) :
    0 < held_in capabilities capability.internal.output capability.time := by
  obtain ⟨time, operator, output⟩ := capability
  obtain rfl : operator = 0 := hoperator
  exact Int.natCast_pos.mpr (List.count_pos_iff.mpr h)

/-! ### Moves -/

/-- An act that concerns capabilities only. -/
structure OperatorAct.Inner (act : OperatorAct T) : Prop where
  consumed : act.consumed = 0
  produced : act.produced = 0

/-- Capabilities come of others, and of messages that have been seen, by acts of an operator. -/
def Moves (summary : List (List (Antichain S))) (seen : ℕ → T → Prop) (before after : List (Capability T)) :
    Prop :=
  (∀ capability ∈ before, capability.internal.operator = 0) →
    (∀ capability ∈ after, capability.internal.operator = 0) ∧
    ∀ holdings : Holdings T, holdings.held = held_in before → holdings.seen = seen →
      ∃ acts, Run (OperatorAct.Done summary) holdings acts { holdings with held := held_in after } ∧
        ∀ act ∈ acts, act.Inner

variable {summary : List (List (Antichain S))} {seen : ℕ → T → Prop}

namespace Moves

variable {first second third : List (Capability T)}

theorem refl (capabilities : List (Capability T)) : Moves summary seen capabilities capabilities := by
  intro hlocal
  refine ⟨hlocal, fun holdings hheld _ => ⟨[], ?_, fun _ hact => absurd hact List.not_mem_nil⟩⟩
  rw [← hheld]
  exact Run.nil

theorem trans (h : Moves summary seen first second) (h' : Moves summary seen second third) :
    Moves summary seen first third := by
  intro hlocal
  obtain ⟨hmiddle, hfirst⟩ := h hlocal
  obtain ⟨hlast, hsecond⟩ := h' hmiddle
  refine ⟨hlast, fun holdings hheld hseen => ?_⟩
  obtain ⟨acts, hrun, hacts⟩ := hfirst holdings hheld hseen
  obtain ⟨more, hmore, hothers⟩ := hsecond { holdings with held := held_in second } rfl hseen
  exact ⟨acts ++ more, hrun.append hmore,
    fun act hact => (List.mem_append.mp hact).elim (hacts act) (hothers act)⟩

theorem perm {first' second' : List (Capability T)} (h : Moves summary seen first second)
    (hfirst : first'.Perm first) (hsecond : second'.Perm second) : Moves summary seen first' second' := by
  intro hlocal
  obtain ⟨hlast, hmoves⟩ := h fun capability hmem => hlocal capability (hfirst.mem_iff.mpr hmem)
  refine ⟨fun capability hmem => hlast capability (hsecond.mem_iff.mp hmem), fun holdings hheld hseen => ?_⟩
  rw [held_in_perm hsecond]
  exact hmoves holdings (hheld.trans (held_in_perm hfirst)) hseen

/-- One act changes the live capabilities. -/
theorem of_act (act : OperatorAct T) (hinner : act.Inner)
    (hlocal : (∀ capability ∈ first, capability.internal.operator = 0) →
      ∀ capability ∈ second, capability.internal.operator = 0)
    (hact : (∀ capability ∈ first, capability.internal.operator = 0) → ∀ holdings : Holdings T,
      holdings.held = held_in first → holdings.seen = seen →
        act.Done summary holdings { holdings with held := held_in second }) :
    Moves summary seen first second := by
  intro hfirst
  refine ⟨hlocal hfirst, fun holdings hheld hseen => ?_⟩
  refine ⟨[act], Run.nil.snoc (hact hfirst holdings hheld hseen), fun other hother => ?_⟩
  rw [List.mem_singleton.mp hother]
  exact hinner

end Moves

/-- A new capability at a later time. -/
theorem moves_mint {capabilities : List (Capability T)} {capability : Capability T}
    (hmem : capability ∈ capabilities) {time : T} (hle : capability.time ≤ time) :
    Moves summary seen capabilities (⟨time, capability.internal⟩ :: capabilities) := by
  refine Moves.of_act (.delay capability.internal.output capability.time time) ⟨rfl, rfl⟩
    (fun hlocal other hother => ?_) fun hlocal holdings hheld _ => ?_
  · rcases List.mem_cons.mp hother with rfl | hold
    · exact hlocal capability hmem
    · exact hlocal other hold
  · have hcons := held_in_cons ⟨time, capability.internal⟩ (hlocal capability hmem) capabilities
    rw [hcons, ← hheld]
    refine OperatorAct.Done.delay ?_ hle
    rw [hheld]
    exact held_in_pos hmem (hlocal capability hmem)

/-- A new capability that comes of a message. -/
theorem moves_seen {capabilities : List (Capability T)} {input : ℕ} {time : T} (hseen : seen input time)
    {output : ℕ} {later : T} (hpromised : Promised summary input time output later) :
    Moves summary seen capabilities (⟨later, ⟨0, output⟩⟩ :: capabilities) := by
  refine Moves.of_act (.retain input time output later) ⟨rfl, rfl⟩
    (fun hlocal other hother => ?_) fun hlocal holdings hheld hsame => ?_
  · rcases List.mem_cons.mp hother with rfl | hold
    · rfl
    · exact hlocal other hold
  · have hcons := held_in_cons ⟨later, ⟨0, output⟩⟩ rfl capabilities
    rw [hcons, ← hheld]
    refine OperatorAct.Done.retain ?_ hpromised
    rw [hsame]
    exact hseen

/-- A capability is dropped. -/
theorem moves_drop (capability : Capability T) (capabilities : List (Capability T)) :
    Moves summary seen (capability :: capabilities) capabilities := by
  refine Moves.of_act (.drop capability.internal.output capability.time) ⟨rfl, rfl⟩
    (fun hlocal other hother => hlocal other (List.mem_cons_of_mem _ hother))
    fun hlocal holdings hheld _ => ?_
  have hoperator := hlocal capability List.mem_cons_self
  have hdropped : holdings.held + at_port capability.internal.output capability.time (-1) =
      held_in capabilities := by
    rw [hheld, held_in_cons capability hoperator]
    funext output time
    simp only [Pi.add_apply, at_port]
    split <;> simp
  rw [← hdropped]
  refine OperatorAct.Done.drop ?_
  rw [hheld]
  exact held_in_pos List.mem_cons_self hoperator

theorem moves_drop_all (dropped capabilities : List (Capability T)) :
    Moves summary seen (dropped ++ capabilities) capabilities := by
  induction dropped with
  | nil => exact Moves.refl capabilities
  | cons capability dropped ih => exact (moves_drop capability (dropped ++ capabilities)).trans ih

/-! ### Capabilities and references -/

section Capabilities

variable {capability made : Capability T} {capabilities : List (Capability T)} {new_time : T}
  {cells cells' : Cells T}

theorem Capability.moves_delayed (hmem : capability ∈ capabilities)
    (h : capability.delayed new_time cells = some (made, cells')) :
    Moves summary seen capabilities (made :: capabilities) := by
  unfold delayed at h
  split at h
  case isTrue hle =>
    cases h
    exact moves_mint hmem hle
  case isFalse => cases h

theorem Capability.moves_clone (hmem : capability ∈ capabilities) (cells : Cells T) :
    Moves summary seen capabilities ((capability.clone cells).1 :: capabilities) :=
  moves_mint hmem le_rfl

/-- For a moment there are both capabilities. -/
theorem Capability.moves_downgrade (h : capability.downgrade new_time cells = some (made, cells')) :
    Moves summary seen (capability :: capabilities) (made :: capabilities) := by
  obtain ⟨⟨delayed, middle⟩, hdelayed, heq⟩ := Option.map_eq_some_iff.mp h
  obtain ⟨rfl, rfl⟩ := Prod.mk.inj heq
  have hboth : Moves summary seen (capability :: capabilities) (delayed :: capability :: capabilities) :=
    moves_delayed List.mem_cons_self hdelayed
  have hdropped : Moves summary seen (capability :: delayed :: capabilities) (delayed :: capabilities) :=
    moves_drop capability (delayed :: capabilities)
  exact hboth.trans (hdropped.perm (List.Perm.swap _ _ _) (List.Perm.refl _))

/-- Later than what is promised is promised. -/
theorem Promised.mono {input output : ℕ} {time later last : T} (h : Promised summary input time output later)
    (hle : later ≤ last) : Promised summary input time output last := by
  obtain ⟨outputs, antichain, path, result, houtputs, hantichain, hpath, hresult, hbefore⟩ := h
  exact ⟨outputs, antichain, path, result, houtputs, hantichain, hpath, hresult, hbefore.trans hle⟩

/-- A reference to a capability that came with a message, for the outputs that it is promised at. -/
structure Referred (summary : List (List (Antichain S))) (seen : ℕ → T → Prop) (outputs : ℕ)
    (capability : CapabilityRef T) : Prop where
  internal : capability.internal = outputs_of 0 outputs
  promised : ∃ input, seen input capability.time ∧
    ∀ output < outputs, Promised summary input capability.time output capability.time

/-- The output of a reference. -/
theorem Referred.port {outputs : ℕ} {reference : CapabilityRef T} (h : Referred summary seen outputs reference)
    {output_port : ℕ} {internal : Internal} (hport : reference.internal[output_port]? = some internal) :
    output_port < outputs ∧ internal = ⟨0, output_port⟩ := by
  rw [h.internal] at hport
  unfold outputs_of at hport
  rw [List.getElem?_map] at hport
  obtain ⟨output, houtput, rfl⟩ := Option.map_eq_some_iff.mp hport
  obtain ⟨hlt, rfl⟩ := List.getElem?_eq_some_iff.mp houtput
  rw [List.length_range] at hlt
  rw [List.getElem_range]
  exact ⟨hlt, rfl⟩

theorem CapabilityRef.moves_delayed_for_output {outputs : ℕ} {reference : CapabilityRef T}
    (hreferred : Referred summary seen outputs reference) {output_port : ℕ}
    (h : reference.delayed_for_output new_time output_port cells = some (made, cells')) :
    Moves summary seen capabilities (made :: capabilities) := by
  unfold delayed_for_output at h
  split at h
  case isTrue hle =>
    obtain ⟨internal, hport, heq⟩ := Option.map_eq_some_iff.mp h
    obtain ⟨rfl, rfl⟩ := Prod.mk.inj heq
    obtain ⟨hlt, rfl⟩ := hreferred.port hport
    obtain ⟨input, hseen, hpromised⟩ := hreferred.promised
    exact moves_seen hseen ((hpromised output_port hlt).mono hle)
  case isFalse => cases h

theorem CapabilityRef.moves_retain_for_output {outputs : ℕ} {reference : CapabilityRef T}
    (hreferred : Referred summary seen outputs reference) {output_port : ℕ}
    (h : reference.retain_for_output output_port cells = some (made, cells')) :
    Moves summary seen capabilities (made :: capabilities) := by
  obtain ⟨internal, hport, heq⟩ := Option.map_eq_some_iff.mp h
  obtain ⟨rfl, rfl⟩ := Prod.mk.inj heq
  obtain ⟨hlt, rfl⟩ := hreferred.port hport
  obtain ⟨input, hseen, hpromised⟩ := hreferred.promised
  exact moves_seen hseen (hpromised output_port hlt)

end Capabilities

/-! ### Sets -/

namespace CapabilitySet

variable {set : CapabilitySet T} {cells cells' : Cells T} {rest : List (Capability T)}

/-- The inserted capability goes into the set or is dropped, and so do the elements it covers. -/
theorem moves_insert (set : CapabilitySet T) (capability : Capability T) (cells : Cells T) :
    Moves summary seen (capability :: (set.elements ++ rest))
      ((set.insert capability cells).1.elements ++ rest) := by
  unfold insert
  split
  · exact moves_drop capability (set.elements ++ rest)
  · have hdropped : Moves summary seen _ _ := moves_drop_all
      (set.elements.filter fun element => capability.less_equal element)
      (((set.elements.filter fun element => !capability.less_equal element) ++ [capability]) ++ rest)
    refine hdropped.perm ?_ (List.Perm.refl _)
    have hfilter := List.filter_append_perm (fun element => capability.less_equal element) set.elements
    rw [← List.append_assoc, ← List.append_assoc]
    refine List.Perm.append_right rest (?_ : (capability :: set.elements).Perm _)
    exact (hfilter.symm.cons capability).trans (List.perm_append_singleton capability _).symm

theorem moves_delayed {capabilities : List (Capability T)} {time : T} {made : Capability T}
    (hmem : ∀ element ∈ set.elements, element ∈ capabilities)
    (h : set.delayed time cells = some (made, cells')) :
    Moves summary seen capabilities (made :: capabilities) := by
  unfold CapabilitySet.delayed at h
  split at h
  case h_1 element hfind =>
    exact Capability.moves_delayed (hmem element (List.mem_of_find?_eq_some hfind)) h
  case h_2 => cases h

theorem moves_push_delayed {state next : CapabilitySet T × Cells T} {time : T}
    (h : push_delayed state time = some next) :
    Moves summary seen (state.1.elements ++ rest) (next.1.elements ++ rest) := by
  obtain ⟨⟨made, cells⟩, hdelayed, rfl⟩ := Option.map_eq_some_iff.mp h
  have hmoves : Moves summary seen (state.1.elements ++ rest) (made :: (state.1.elements ++ rest)) :=
    moves_delayed (fun element helement => List.mem_append_left rest helement) hdelayed
  refine hmoves.perm (List.Perm.refl _) ?_
  exact (List.perm_append_singleton made state.1.elements).append_right rest

/-- The new capabilities come after the old ones, so that the old ones are those dropped. -/
theorem moves_downgrade {downgraded : CapabilitySet T} {frontier : List T}
    (h : set.downgrade frontier cells = some (downgraded, cells')) :
    Moves summary seen (set.elements ++ rest) (downgraded.elements ++ rest) := by
  obtain ⟨⟨pushed, middle⟩, hpushed, heq⟩ := Option.map_eq_some_iff.mp h
  obtain ⟨rfl, rfl⟩ := Prod.mk.inj heq
  have hkept : Moves summary seen (set.elements ++ rest) (pushed.elements ++ rest) :=
    foldlM_invariant (P := fun state : CapabilitySet T × Cells T =>
        Moves summary seen (set.elements ++ rest) (state.1.elements ++ rest)) (Moves.refl _)
      (fun _ hbefore hstep => hbefore.trans (moves_push_delayed hstep)) hpushed
  have hdropped : Moves summary seen _ _ := moves_drop_all (pushed.elements.take set.elements.length)
    (pushed.elements.drop set.elements.length ++ rest)
  rw [← List.append_assoc, List.take_append_drop] at hdropped
  exact hkept.trans hdropped

/-- Each element of a set is cloned in turn. -/
theorem moves_clone {capabilities : List (Capability T)}
    (hmem : ∀ element ∈ set.elements, element ∈ capabilities) (cells : Cells T) :
    Moves summary seen capabilities ((set.clone cells).1.elements ++ capabilities) := by
  refine List.foldlRecOn (motive := fun state : CapabilitySet T × Cells T =>
    Moves summary seen capabilities (state.1.elements ++ capabilities)) set.elements push_clone
    (Moves.refl capabilities) fun state hstate element helement => ?_
  have hcloned : Moves summary seen (state.1.elements ++ capabilities)
      ((element.clone state.2).1 :: (state.1.elements ++ capabilities)) :=
    element.moves_clone (List.mem_append_right _ (hmem element helement)) state.2
  refine hstate.trans (hcloned.perm (List.Perm.refl _) ?_)
  exact (List.perm_append_singleton _ state.1.elements).append_right capabilities

end CapabilitySet

/-! ### All calls -/

namespace Holder

variable {holder after : Holder T} {outputs : ℕ}

/-- A new capability is kept. -/
theorem moves_hold {made : Capability T × Cells T} (h : Moves summary seen holder.live (made.1 :: holder.live)) :
    Moves summary seen holder.live (holder.hold made).live :=
  h.perm (List.Perm.refl _) ((List.perm_append_singleton made.1 holder.held).append_right _)

/-- The elements of a set are live. -/
theorem mem_live_of_set {index : ℕ} {set : CapabilitySet T} (h : holder.sets[index]? = some set) :
    ∀ element ∈ set.elements, element ∈ holder.live :=
  fun _ helement => List.mem_append_right _ (List.mem_flatMap.mpr ⟨set, List.mem_of_getElem? h, helement⟩)

/-- Whatever is called, the live capabilities move. -/
theorem moves_perform {core : OperatorCore T} (hcore : holder.operators = [core]) {call : CapabilityCall T}
    (hreferred : ∀ time, call.reference = some time → Referred summary seen outputs ⟨time, core.internal⟩)
    (h : holder.perform call = some after) : Moves summary seen holder.live after.live := by
  -- the only operator is this one
  have hoperator : ∀ {operator : ℕ} {found : OperatorCore T}, holder.operators[operator]? = some found →
      found = core := by
    intro operator found hfound
    rw [hcore] at hfound
    exact List.mem_singleton.mp (List.mem_of_getElem? hfound)
  cases call with
  | delayed place new_time =>
    obtain ⟨capability, hborrow, hmade⟩ := Option.bind_eq_some_iff.mp h
    obtain ⟨made, hdelayed, rfl⟩ := Option.map_eq_some_iff.mp hmade
    exact moves_hold (Capability.moves_delayed (mem_live_of_borrow hborrow) hdelayed)
  | clone place =>
    obtain ⟨capability, hborrow, rfl⟩ := Option.map_eq_some_iff.mp h
    exact moves_hold (capability.moves_clone (mem_live_of_borrow hborrow) holder.cells)
  | downgrade index new_time =>
    obtain ⟨capability, hindex, hmade⟩ := Option.bind_eq_some_iff.mp h
    obtain ⟨made, hdowngraded, rfl⟩ := Option.map_eq_some_iff.mp hmade
    exact (Capability.moves_downgrade hdowngraded).perm (perm_erase_held holder hindex)
      (perm_set_held holder hindex made.1)
  | drop index =>
    obtain ⟨capability, hindex, rfl⟩ := Option.map_eq_some_iff.mp h
    exact (moves_drop capability _).perm (perm_erase_held holder hindex) (List.Perm.refl _)
  | retain operator time output_port =>
    obtain ⟨found, hfound, hmade⟩ := Option.bind_eq_some_iff.mp h
    obtain ⟨made, hretained, rfl⟩ := Option.map_eq_some_iff.mp hmade
    obtain rfl := hoperator hfound
    exact moves_hold (CapabilityRef.moves_retain_for_output (hreferred time rfl) hretained)
  | delayed_ref operator time new_time output_port =>
    obtain ⟨found, hfound, hmade⟩ := Option.bind_eq_some_iff.mp h
    obtain ⟨made, hdelayed, rfl⟩ := Option.map_eq_some_iff.mp hmade
    obtain rfl := hoperator hfound
    exact moves_hold (CapabilityRef.moves_delayed_for_output (hreferred time rfl) hdelayed)
  | set_new =>
    cases h
    exact (Moves.refl holder.live).perm (List.Perm.refl _) (perm_append_set holder CapabilitySet.new)
  | set_from_elem index =>
    obtain ⟨capability, hindex, rfl⟩ := Option.map_eq_some_iff.mp h
    exact (Moves.refl _).perm (List.Perm.refl _)
      ((perm_append_set _ (CapabilitySet.from_elem capability)).trans (perm_erase_held holder hindex).symm)
  | set_insert set index =>
    obtain ⟨capabilities, hcapabilities, hmade⟩ := Option.bind_eq_some_iff.mp h
    obtain ⟨capability, hindex, rfl⟩ := Option.map_eq_some_iff.mp hmade
    refine (capabilities.moves_insert capability holder.cells).perm ?_
      (perm_set_set { holder with held := holder.held.eraseIdx index } hcapabilities _)
    exact (perm_erase_held holder hindex).trans
      ((perm_erase_set { holder with held := holder.held.eraseIdx index } hcapabilities).append_left [capability])
  | set_delayed set time =>
    obtain ⟨capabilities, hcapabilities, hmade⟩ := Option.bind_eq_some_iff.mp h
    obtain ⟨made, hdelayed, rfl⟩ := Option.map_eq_some_iff.mp hmade
    exact moves_hold (CapabilitySet.moves_delayed (mem_live_of_set hcapabilities) hdelayed)
  | set_downgrade set frontier =>
    obtain ⟨capabilities, hcapabilities, hmade⟩ := Option.bind_eq_some_iff.mp h
    obtain ⟨made, hdowngraded, rfl⟩ := Option.map_eq_some_iff.mp hmade
    exact (CapabilitySet.moves_downgrade hdowngraded).perm (perm_erase_set holder hcapabilities)
      (perm_set_set holder hcapabilities made.1)
  | set_clone set =>
    obtain ⟨capabilities, hcapabilities, rfl⟩ := Option.map_eq_some_iff.mp h
    exact (CapabilitySet.moves_clone (mem_live_of_set hcapabilities) holder.cells).perm (List.Perm.refl _)
      (perm_append_set holder _)
  | set_drop set =>
    obtain ⟨capabilities, hcapabilities, rfl⟩ := Option.map_eq_some_iff.mp h
    exact (moves_drop_all capabilities.elements _).perm (perm_erase_set holder hcapabilities)
      (List.Perm.refl _)

end Holder

end Timely
