/-
  Timely/Capability.lean
  ======================
  **Capabilities** (`timely/src/dataflow/operators/capability.rs`).

  A capability lets an operator send at a time.  All capabilities for one output
  share the change batch of that output, and write to it when they are made and
  when they are dropped: what the batches gain is what the live objects gain.
  A result `none` is a panic.
-/
import Timely.ChangeBatch
import Timely.Library.Run
import Timely.Timestamp
import Mathlib.Data.List.Perm.Basic
import Mathlib.Logic.Function.Basic

set_option linter.unusedSectionVars false

namespace Timely

open Library

/-! ### Shared change batches -/

/-- A reference to a shared change batch, named by the output that it was made for.  Two
    references point to the same batch exactly if they are equal. -/
structure Internal where
  operator : ℕ
  output : ℕ
deriving DecidableEq, Repr

/-- The contents of the shared change batches. -/
abbrev Cells (T : Type) [Ord T] := Internal → ChangeBatch T

/-- The capability to send data with a certain timestamp on a dataflow edge. -/
structure Capability (T : Type) where
  time : T
  internal : Internal
deriving DecidableEq, Repr

/-- An unowned capability, which can be used but not retained: it knows the batches of all
    outputs of its operator. -/
structure CapabilityRef (T : Type) where
  time : T
  internal : List Internal

/-- A set of capabilities, for possibly incomparable times. -/
structure CapabilitySet (T : Type) where
  elements : List (Capability T)

variable {T : Type} [PartialOrder T] [DecidableLE T] [DecidableEq T] [Ord T] [LinearExtension T]

/-- Update the batch behind a reference. -/
def Cells.update (cells : Cells T) (internal : Internal) (time : T) (value : ℤ) : Cells T :=
  Function.update cells internal ((cells internal).update time value)

/-! ### Capabilities -/

/-- Creates a new capability at `time` while incrementing the provided batch. -/
def mint (time : T) (internal : Internal) (cells : Cells T) : Capability T × Cells T :=
  (⟨time, internal⟩, cells.update internal time 1)

namespace Capability

/-- `drop` releases the permit. -/
def drop (capability : Capability T) (cells : Cells T) : Cells T :=
  cells.update capability.internal capability.time (-1)

def clone (capability : Capability T) (cells : Cells T) : Capability T × Cells T :=
  mint capability.time capability.internal cells

/-- Makes a new capability for a time greater or equal to that of the source capability. -/
def delayed (capability : Capability T) (new_time : T) (cells : Cells T) :
    Option (Capability T × Cells T) :=
  if capability.time ≤ new_time then some (mint new_time capability.internal cells) else none

/-- Downgrades the capability: the new one takes its place, and the old one is dropped. -/
def downgrade (capability : Capability T) (new_time : T) (cells : Cells T) :
    Option (Capability T × Cells T) :=
  (capability.delayed new_time cells).map fun delayed => (delayed.1, capability.drop delayed.2)

/-- Capabilities are compared by their times where they share a batch. -/
def less_equal (capability other : Capability T) : Bool :=
  decide (capability.time ≤ other.time) && decide (capability.internal = other.internal)

end Capability

/-- Drop several capabilities, first to last. -/
def drop_all (capabilities : List (Capability T)) (cells : Cells T) : Cells T :=
  capabilities.foldl (fun cells capability => capability.drop cells) cells

namespace CapabilityRef

/-- Delays capability for a specific output port. -/
def delayed_for_output (capability : CapabilityRef T) (new_time : T) (output_port : ℕ)
    (cells : Cells T) : Option (Capability T × Cells T) :=
  if capability.time ≤ new_time then
    (capability.internal[output_port]?).map fun internal => mint new_time internal cells
  else none

def delayed (capability : CapabilityRef T) (new_time : T) (cells : Cells T) :
    Option (Capability T × Cells T) :=
  capability.delayed_for_output new_time 0 cells

/-- Transforms to an owned capability for a specific output port. -/
def retain_for_output (capability : CapabilityRef T) (output_port : ℕ) (cells : Cells T) :
    Option (Capability T × Cells T) :=
  (capability.internal[output_port]?).map fun internal => mint capability.time internal cells

def retain (capability : CapabilityRef T) (cells : Cells T) : Option (Capability T × Cells T) :=
  capability.retain_for_output 0 cells

end CapabilityRef

namespace CapabilitySet

/-- Allocates an empty capability set. -/
def new : CapabilitySet T := ⟨[]⟩

/-- Allocates a capability set containing a single capability. -/
def from_elem (capability : Capability T) : CapabilitySet T := ⟨[capability]⟩

/-- Inserts `capability` into the set, discarding redundant capabilities. -/
def insert (set : CapabilitySet T) (capability : Capability T) (cells : Cells T) :
    CapabilitySet T × Cells T :=
  if set.elements.any fun element => element.less_equal capability then
    (set, capability.drop cells)
  else
    (⟨(set.elements.filter fun element => !capability.less_equal element) ++ [capability]⟩,
      drop_all (set.elements.filter fun element => capability.less_equal element) cells)

/-- Creates a new capability to send data at `time`. -/
def delayed (set : CapabilitySet T) (time : T) (cells : Cells T) :
    Option (Capability T × Cells T) :=
  match set.elements.find? fun element => element.time ≤ time with
  | some element => element.delayed time cells
  | none => none

/-- One iteration of the loop of `downgrade`. -/
def push_delayed (state : CapabilitySet T × Cells T) (time : T) : Option (CapabilitySet T × Cells T) :=
  (state.1.delayed time state.2).map fun delayed => (⟨state.1.elements ++ [delayed.1]⟩, delayed.2)

/-- Downgrades the set of capabilities to correspond with the times in `frontier`. -/
def downgrade (set : CapabilitySet T) (frontier : List T) (cells : Cells T) :
    Option (CapabilitySet T × Cells T) :=
  (frontier.foldlM push_delayed (set, cells)).map fun pushed =>
    (⟨pushed.1.elements.drop set.elements.length⟩,
      drop_all (pushed.1.elements.take set.elements.length) pushed.2)

/-- Clone one more capability. -/
def push_clone (state : CapabilitySet T × Cells T) (capability : Capability T) :
    CapabilitySet T × Cells T :=
  let cloned := capability.clone state.2
  (⟨state.1.elements ++ [cloned.1]⟩, cloned.2)

/-- Clones the capabilities one after the other. -/
def clone (set : CapabilitySet T) (cells : Cells T) : CapabilitySet T × Cells T :=
  set.elements.foldl push_clone (new, cells)

def drop (set : CapabilitySet T) (cells : Cells T) : Cells T := drop_all set.elements cells

end CapabilitySet

/-! ### Accounting -/

/-- The batches gain what the objects gain, and objects refer to no batches but those allowed. -/
structure Accounted (allowed : Internal → Prop) (before : List (Capability T)) (cells : Cells T)
    (after : List (Capability T)) (cells' : Cells T) : Prop where
  balance : ∀ capability : Capability T,
    (cells' capability.internal).value capability.time + before.count capability =
      (cells capability.internal).value capability.time + after.count capability
  within : (∀ capability ∈ before, allowed capability.internal) →
    ∀ capability ∈ after, allowed capability.internal

section Accounting

variable {allowed : Internal → Prop}

namespace Accounted

variable {first second third rest : List (Capability T)} {cells cells' cells'' : Cells T}

theorem refl (capabilities : List (Capability T)) (cells : Cells T) :
    Accounted allowed capabilities cells capabilities cells := ⟨fun _ => rfl, fun h => h⟩

theorem trans (h : Accounted allowed first cells second cells')
    (h' : Accounted allowed second cells' third cells'') :
    Accounted allowed first cells third cells'' where
  balance capability := by
    have hfirst := h.balance capability
    have hsecond := h'.balance capability
    omega
  within hfirst := h'.within (h.within hfirst)

/-- Objects that an operation does not touch may be left out. -/
theorem frame (h : Accounted allowed first cells second cells') (rest : List (Capability T)) :
    Accounted allowed (first ++ rest) cells (second ++ rest) cells' where
  balance capability := by
    have hcapability := h.balance capability
    rw [List.count_append, List.count_append]
    push_cast
    omega
  within hall capability hcapability := by
    rcases List.mem_append.mp hcapability with hsecond | hrest
    · exact h.within (fun other hother => hall other (List.mem_append_left _ hother)) _ hsecond
    · exact hall _ (List.mem_append_right _ hrest)

theorem perm {first' second' : List (Capability T)} (h : Accounted allowed first cells second cells')
    (hfirst : first'.Perm first) (hsecond : second'.Perm second) :
    Accounted allowed first' cells second' cells' where
  balance capability := by
    rw [hfirst.count_eq, hsecond.count_eq]
    exact h.balance capability
  within hall capability hcapability :=
    h.within (fun other hother => hall other (hfirst.mem_iff.mpr hother)) capability
      (hsecond.mem_iff.mp hcapability)

end Accounted

theorem value_update_cells (cells : Cells T) (internal : Internal) (time : T) (value : ℤ)
    (capability : Capability T) :
    ((cells.update internal time value) capability.internal).value capability.time =
      (cells capability.internal).value capability.time +
        if capability = ⟨time, internal⟩ then value else 0 := by
  obtain ⟨time', internal'⟩ := capability
  unfold Cells.update
  by_cases hinternal : internal' = internal
  · subst hinternal
    rw [Function.update_self, ChangeBatch.value_update]
    simp [eq_comm]
  · rw [Function.update_of_ne hinternal]
    simp [hinternal]

theorem accounted_mint {internal : Internal} (hallowed : allowed internal) (time : T) (cells : Cells T) :
    Accounted allowed [] cells [(mint time internal cells).1] (mint time internal cells).2 where
  balance capability := by
    unfold mint
    rw [value_update_cells, List.count_nil, List.count_singleton]
    by_cases hcapability : capability = ⟨time, internal⟩
    · simp [hcapability]
    · simp [hcapability, Ne.symm hcapability]
  within _ capability hcapability := by
    obtain rfl := List.mem_singleton.mp hcapability
    exact hallowed

theorem Capability.accounted_drop (capability : Capability T) (cells : Cells T) :
    Accounted allowed [capability] cells [] (capability.drop cells) where
  balance other := by
    unfold Capability.drop
    rw [value_update_cells, List.count_nil, List.count_singleton]
    by_cases hother : other = capability
    · simp [hother]
    · simp [hother, Ne.symm hother]
  within _ _ hnone := absurd hnone List.not_mem_nil

theorem accounted_drop_all (capabilities : List (Capability T)) (cells : Cells T) :
    Accounted allowed capabilities cells [] (drop_all capabilities cells) := by
  induction capabilities generalizing cells with
  | nil => exact Accounted.refl [] cells
  | cons capability capabilities ih =>
    exact ((capability.accounted_drop cells).frame capabilities).trans (ih (capability.drop cells))

namespace Capability

variable {capability made : Capability T} {new_time : T} {cells cells' : Cells T}

theorem accounted_clone (hallowed : allowed capability.internal) (cells : Cells T) :
    Accounted allowed [] cells [(capability.clone cells).1] (capability.clone cells).2 :=
  accounted_mint hallowed capability.time cells

theorem accounted_delayed (hallowed : allowed capability.internal)
    (h : capability.delayed new_time cells = some (made, cells')) :
    Accounted allowed [] cells [made] cells' := by
  unfold delayed at h
  split at h
  · cases h
    exact accounted_mint hallowed new_time cells
  · cases h

theorem accounted_downgrade (hallowed : allowed capability.internal)
    (h : capability.downgrade new_time cells = some (made, cells')) :
    Accounted allowed [capability] cells [made] cells' := by
  obtain ⟨⟨delayed, middle⟩, hdelayed, heq⟩ := Option.map_eq_some_iff.mp h
  obtain ⟨rfl, rfl⟩ := Prod.mk.inj heq
  -- for a moment both capabilities exist
  have hboth : Accounted allowed [capability] cells [delayed, capability] middle :=
    (accounted_delayed hallowed hdelayed).frame [capability]
  have hdropped : Accounted allowed [capability, delayed] middle [delayed] (capability.drop middle) :=
    (capability.accounted_drop middle).frame [delayed]
  exact hboth.trans (hdropped.perm (List.Perm.swap _ _ _) (List.Perm.refl _))

end Capability

namespace CapabilityRef

variable {capability : CapabilityRef T} {output_port : ℕ} {made : Capability T} {new_time : T}
  {cells cells' : Cells T}

theorem accounted_retain_for_output (hallowed : ∀ internal ∈ capability.internal, allowed internal)
    (h : capability.retain_for_output output_port cells = some (made, cells')) :
    Accounted allowed [] cells [made] cells' := by
  obtain ⟨internal, hinternal, heq⟩ := Option.map_eq_some_iff.mp h
  obtain ⟨rfl, rfl⟩ := Prod.mk.inj heq
  exact accounted_mint (hallowed internal (List.mem_of_getElem? hinternal)) _ cells

theorem accounted_delayed_for_output (hallowed : ∀ internal ∈ capability.internal, allowed internal)
    (h : capability.delayed_for_output new_time output_port cells = some (made, cells')) :
    Accounted allowed [] cells [made] cells' := by
  unfold delayed_for_output at h
  split at h
  · obtain ⟨internal, hinternal, heq⟩ := Option.map_eq_some_iff.mp h
    obtain ⟨rfl, rfl⟩ := Prod.mk.inj heq
    exact accounted_mint (hallowed internal (List.mem_of_getElem? hinternal)) _ cells
  · cases h

end CapabilityRef

namespace CapabilitySet

variable {set : CapabilitySet T} {cells cells' : Cells T}

/-- The inserted capability goes into the set or is dropped, and so do the elements it covers. -/
theorem accounted_insert (set : CapabilitySet T) (capability : Capability T) (cells : Cells T) :
    Accounted allowed (capability :: set.elements) cells (set.insert capability cells).1.elements
      (set.insert capability cells).2 := by
  unfold insert
  split
  · exact (capability.accounted_drop cells).frame set.elements
  · have hdropped : Accounted allowed _ cells _ _ := (accounted_drop_all
      (set.elements.filter fun element => capability.less_equal element) cells).frame
        ((set.elements.filter fun element => !capability.less_equal element) ++ [capability])
    refine hdropped.perm ?_ (List.Perm.refl _)
    rw [← List.append_assoc]
    refine List.Perm.trans ?_ (List.perm_append_singleton capability _).symm
    exact ((List.filter_append_perm _ set.elements).symm).cons capability

theorem accounted_delayed {time : T} {made : Capability T}
    (hallowed : ∀ element ∈ set.elements, allowed element.internal)
    (h : set.delayed time cells = some (made, cells')) : Accounted allowed [] cells [made] cells' := by
  unfold CapabilitySet.delayed at h
  split at h
  case h_1 element hfind =>
    exact Capability.accounted_delayed (hallowed element (List.mem_of_find?_eq_some hfind)) h
  case h_2 => cases h

theorem accounted_push_delayed {state next : CapabilitySet T × Cells T} {time : T}
    (hallowed : ∀ element ∈ state.1.elements, allowed element.internal)
    (h : push_delayed state time = some next) :
    Accounted allowed state.1.elements state.2 next.1.elements next.2 := by
  obtain ⟨⟨made, cells⟩, hdelayed, rfl⟩ := Option.map_eq_some_iff.mp h
  exact ((accounted_delayed hallowed hdelayed).frame state.1.elements).perm (List.Perm.refl _)
    (List.perm_append_singleton made state.1.elements)

/-- The new capabilities come after the old ones, so that the old ones are those dropped. -/
theorem accounted_downgrade {downgraded : CapabilitySet T} {frontier : List T}
    (hallowed : ∀ element ∈ set.elements, allowed element.internal)
    (h : set.downgrade frontier cells = some (downgraded, cells')) :
    Accounted allowed set.elements cells downgraded.elements cells' := by
  obtain ⟨⟨pushed, middle⟩, hpushed, heq⟩ := Option.map_eq_some_iff.mp h
  obtain ⟨rfl, rfl⟩ := Prod.mk.inj heq
  have hkept : Accounted allowed set.elements cells pushed.elements middle :=
    foldlM_invariant (P := fun state : CapabilitySet T × Cells T =>
        Accounted allowed set.elements cells state.1.elements state.2) (Accounted.refl _ _)
      (fun _ hbefore hstep =>
        hbefore.trans (accounted_push_delayed (hbefore.within hallowed) hstep)) hpushed
  have hdropped : Accounted allowed _ middle _ _ :=
    (accounted_drop_all (pushed.elements.take set.elements.length) middle).frame
      (pushed.elements.drop set.elements.length)
  rw [List.take_append_drop, List.nil_append] at hdropped
  exact hkept.trans hdropped

theorem accounted_push_clone (state : CapabilitySet T × Cells T) {capability : Capability T}
    (hallowed : allowed capability.internal) :
    Accounted allowed state.1.elements state.2 (push_clone state capability).1.elements
      (push_clone state capability).2 :=
  ((Capability.accounted_clone hallowed state.2).frame state.1.elements).perm (List.Perm.refl _)
    (List.perm_append_singleton _ state.1.elements)

theorem accounted_clone (hallowed : ∀ element ∈ set.elements, allowed element.internal)
    (cells : Cells T) :
    Accounted allowed [] cells (set.clone cells).1.elements (set.clone cells).2 :=
  List.foldlRecOn (motive := fun state : CapabilitySet T × Cells T =>
      Accounted allowed [] cells state.1.elements state.2) set.elements push_clone
    (Accounted.refl [] cells)
    fun state hstate capability hcapability =>
      hstate.trans (accounted_push_clone state (hallowed capability hcapability))

theorem accounted_drop (set : CapabilitySet T) (cells : Cells T) :
    Accounted allowed set.elements cells [] (set.drop cells) := accounted_drop_all set.elements cells

end CapabilitySet

end Accounting

end Timely
