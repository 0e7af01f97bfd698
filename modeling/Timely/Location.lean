/-
  Timely/Location.lean
  ====================
  **Dataflow locations** (`timely/src/progress/mod.rs`).

  A location is a port of a scope-local operator: a target (operator input or
  scope output) or a source (operator output or scope input).  The derived
  `Ord` instances compare the node first, and put targets before sources.
-/
import Timely.Order

namespace Timely

/-- An operator port. -/
inductive Port where
  | target (port : ℕ)
  | source (port : ℕ)
deriving DecidableEq, Repr

/-- Names a source of a data stream. -/
structure Source where
  node : ℕ
  port : ℕ
deriving DecidableEq, Repr

/-- Names a target of a data stream. -/
structure Target where
  node : ℕ
  port : ℕ
deriving DecidableEq, Repr

/-- A timely dataflow location. -/
structure Location where
  node : ℕ
  port : Port
deriving DecidableEq, Repr

namespace Location

/-- Creates a new target location (operator input or scope output). -/
def new_target (node port : ℕ) : Location := ⟨node, .target port⟩

/-- Creates a new source location (operator output or scope input). -/
def new_source (node port : ℕ) : Location := ⟨node, .source port⟩

def from_target (target : Target) : Location := ⟨target.node, .target target.port⟩

def from_source (source : Source) : Location := ⟨source.node, .source source.port⟩

/-- If the location is a target. -/
def is_target (location : Location) : Bool :=
  match location.port with
  | .target _ => true
  | .source _ => false

/-- If the location is a source. -/
def is_source (location : Location) : Bool :=
  match location.port with
  | .target _ => false
  | .source _ => true

theorem from_target_injective : Function.Injective from_target := by
  rintro ⟨node, port⟩ ⟨node', port'⟩ h
  simpa [from_target] using h

theorem from_source_injective : Function.Injective from_source := by
  rintro ⟨node, port⟩ ⟨node', port'⟩ h
  simpa [from_source] using h

theorem from_target_ne_from_source (target : Target) (source : Source) :
    from_target target ≠ from_source source := by
  simp [from_target, from_source]

end Location

/-! ### Sorting orders -/

def Port.key : Port → ℕ × ℕ
  | .target port => (0, port)
  | .source port => (1, port)

def Location.key (location : Location) : ℕ × ℕ × ℕ := (location.node, location.port.key)

def Target.key (target : Target) : ℕ × ℕ := (target.node, target.port)

def Source.key (source : Source) : ℕ × ℕ := (source.node, source.port)

instance : Ord Location := ⟨compareOn Location.key⟩

instance : Ord Target := ⟨compareOn Target.key⟩

instance : Ord Source := ⟨compareOn Source.key⟩

instance : Std.TransOrd Location := inferInstanceAs (Std.TransCmp (compareOn Location.key))

instance : Std.TransOrd Target := inferInstanceAs (Std.TransCmp (compareOn Target.key))

instance : Std.TransOrd Source := inferInstanceAs (Std.TransCmp (compareOn Source.key))

theorem Location.key_injective : Function.Injective Location.key := by
  rintro ⟨node, port⟩ ⟨node', port'⟩ h
  cases port <;> cases port' <;> simp_all [Location.key, Port.key]

instance : Std.LawfulEqOrd Location where
  eq_of_compare {first second} h := Location.key_injective
    (Std.LawfulEqOrd.eq_of_compare (a := first.key) (b := second.key) h)

instance : Std.LawfulEqOrd Target where
  eq_of_compare {first second} h := by
    have hkey : first.key = second.key :=
      Std.LawfulEqOrd.eq_of_compare (a := first.key) (b := second.key) h
    cases first
    cases second
    simpa [Target.key] using hkey

instance : Std.LawfulEqOrd Source where
  eq_of_compare {first second} h := by
    have hkey : first.key = second.key :=
      Std.LawfulEqOrd.eq_of_compare (a := first.key) (b := second.key) h
    cases first
    cases second
    simpa [Source.key] using hkey

/-! ### Keys of updates -/

section Keys

variable {T : Type} [PartialOrder T] [Ord T] [LinearExtension T]

instance : Std.TransOrd (Location × T) := inferInstance

instance : Std.LawfulEqOrd (Location × T) := inferInstance

instance : Std.TransOrd (Target × T) := inferInstance

instance : Std.LawfulEqOrd (Target × T) := inferInstance

instance : Std.TransOrd (Source × T) := inferInstance

instance : Std.LawfulEqOrd (Source × T) := inferInstance

instance : Std.TransOrd (T × Location) := inferInstance

instance : Std.LawfulEqOrd (T × Location) := inferInstance

end Keys

/-- Updates are sorted by node first. -/
theorem Location.node_le_of_compare {T : Type} [Ord T] {first second : Location × T} (h : compare first second = .lt) :
    first.1.node ≤ second.1.node := by
  obtain ⟨⟨node, port⟩, time⟩ := first
  obtain ⟨⟨node', port'⟩, time'⟩ := second
  by_contra hlt
  have hnode : compare node node' = .gt := Nat.compare_eq_gt.mpr (Nat.lt_of_not_le hlt)
  have hlocation : compare (⟨node, port⟩ : Location) ⟨node', port'⟩ = .gt := by
    change Ordering.then (compare node node') _ = .gt
    rw [hnode]
    rfl
  have hpair : Ordering.then (compare (⟨node, port⟩ : Location) ⟨node', port'⟩) _ = .lt := h
  rw [hlocation] at hpair
  cases hpair

end Timely
