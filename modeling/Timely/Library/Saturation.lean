/-
  Timely/Library/Saturation.lean
  ==============================
  **Saturation by a worklist that keeps minimal elements.**

  Items are elements with a key.  From each item others follow; a worklist derives
  them until nothing new comes up, where an element is new unless one kept under
  its key lies below, and displaces those above it.  Items are processed in any
  order, also after they have been displaced.  When derivation is monotone, what
  is left under each key is the set of minimal elements that follow from the
  seeds.  When the order is a well-quasi-order the loop ends, since the up-sets
  of what is kept cannot grow for ever.
-/
import Timely.Library.Minimal
import Mathlib.Data.DFinsupp.WellFounded
import Mathlib.Order.UpperLower.Closure
import Mathlib.Order.WellQuasiOrder

set_option linter.unusedSectionVars false

namespace Library

/-! ### Up-sets of a well-quasi-order -/

/-- In a well-quasi-order up-sets cannot grow for ever: elements that come in one after the
    other would be a sequence in which none lies below a later one. -/
instance wellFoundedLT_upperSet {S : Type*} [Preorder S] [WellQuasiOrderedLE S] :
    WellFoundedLT (UpperSet S) := by
  constructor
  rw [RelEmbedding.wellFounded_iff_isEmpty]
  constructor
  intro chain
  have hdecreasing : ∀ {early late : ℕ}, early < late → chain late < chain early :=
    fun hlt => chain.map_rel_iff.mpr hlt
  have hnew : ∀ index, ∃ element, element ∈ chain (index + 1) ∧ element ∉ chain index := by
    intro index
    have hlt := hdecreasing (Nat.lt_succ_self index)
    obtain ⟨element, hin, hout⟩ := Set.exists_of_ssubset (UpperSet.coe_ssubset_coe.mpr hlt)
    exact ⟨element, hin, hout⟩
  choose element hin hout using hnew
  obtain ⟨early, late, hlt, hle⟩ := wellQuasiOrdered_le element
  have hbefore : chain late ≤ chain (early + 1) := by
    rcases Nat.lt_or_eq_of_le (Nat.succ_le_of_lt hlt) with hsucc | heq
    · exact (hdecreasing hsucc).le
    · exact le_of_eq (congrArg chain heq.symm)
  exact hout late ((chain late).upper hle (hbefore (hin early)))

variable {K S : Type*} [DecidableEq K] [PartialOrder S] [DecidableLE S]

/-! ### The loop -/

/-- The elements kept under each key, and the items still to be processed. -/
structure Saturation (K S : Type*) where
  front : K → List S
  worklist : List (K × S)

namespace Saturation

/-- Keep an item, and schedule it when it is new. -/
def record (state : Saturation K S) (item : K × S) : Saturation K S where
  front := Function.update state.front item.1 (insertMinimal (state.front item.1) item.2).2
  worklist :=
    if (insertMinimal (state.front item.1) item.2).1 then state.worklist ++ [item]
    else state.worklist

theorem front_record_self {state : Saturation K S} {item : K × S} {key : K} (h : key = item.1) :
    (state.record item).front key = (insertMinimal (state.front key) item.2).2 := by
  subst h
  exact Function.update_self _ _ _

theorem front_record_of_ne {state : Saturation K S} {item : K × S} {key : K} (h : key ≠ item.1) :
    (state.record item).front key = state.front key :=
  Function.update_of_ne h _ _

theorem worklist_record (state : Saturation K S) (item : K × S) :
    (state.record item).worklist =
      if (insertMinimal (state.front item.1) item.2).1 then state.worklist ++ [item]
      else state.worklist := rfl

/-- One iteration: any pending item is taken out, and what follows from it is recorded. -/
inductive Step (derive : K × S → List (K × S)) : Saturation K S → Saturation K S → Prop
  | take {front : K → List S} {worklist rest : List (K × S)} {item : K × S} :
      worklist.Perm (item :: rest) →
      Step derive ⟨front, worklist⟩ ((derive item).foldl record ⟨front, rest⟩)

/-- Some element kept under the key lies below. -/
def Covered (state : Saturation K S) (item : K × S) : Prop :=
  ∃ least ∈ state.front item.1, least ≤ item.2

/-- The items that follow from the seeds, in one step or more. -/
inductive Follows (derive : K × S → List (K × S)) (seeds : K × S → Prop) : K × S → Prop
  | seed {item next : K × S} : seeds item → next ∈ derive item → Follows derive seeds next
  | step {item next : K × S} : Follows derive seeds item → next ∈ derive item →
      Follows derive seeds next

/-! ### What recording does -/

/-- What recording items does to a state. -/
structure Recorded (items : List (K × S)) (state after : Saturation K S) : Prop where
  covered : ∀ item, state.Covered item → after.Covered item
  recorded : ∀ item ∈ items, after.Covered item
  member : ∀ item : K × S, item.2 ∈ after.front item.1 →
    item.2 ∈ state.front item.1 ∨ (item ∈ items ∧ item ∈ after.worklist)
  pending : ∀ item ∈ after.worklist, item ∈ state.worklist ∨ item ∈ items
  kept : ∀ item ∈ state.worklist, item ∈ after.worklist
  incomparable : (∀ key, (state.front key).Pairwise
      fun first second => ¬ first ≤ second ∧ ¬ second ≤ first) →
    ∀ key, (after.front key).Pairwise fun first second => ¬ first ≤ second ∧ ¬ second ≤ first

theorem Recorded.nil (state : Saturation K S) : Recorded [] state state where
  covered _ h := h
  recorded _ h := absurd h List.not_mem_nil
  member _ h := Or.inl h
  pending _ h := Or.inl h
  kept _ h := h
  incomparable h := h

theorem recorded_record (state : Saturation K S) (item : K × S) :
    Recorded [item] state (state.record item) where
  covered other h := by
    unfold Covered at h ⊢
    by_cases heq : other.1 = item.1
    · rw [front_record_self heq]
      exact covers_insertMinimal.mpr (Or.inl h)
    · rwa [front_record_of_ne heq]
  recorded other hother := by
    rw [List.mem_singleton] at hother
    subst hother
    unfold Covered
    rw [front_record_self rfl]
    exact covers_insertMinimal.mpr (Or.inr le_rfl)
  member other h := by
    by_cases heq : other.1 = item.1
    · rw [front_record_self heq] at h
      rcases mem_insertMinimal h with hold | ⟨hnew, hflag⟩
      · exact Or.inl hold
      · have hsame : other = item := Prod.ext heq hnew
        subst hsame
        rw [worklist_record, if_pos hflag]
        exact Or.inr ⟨by simp, by simp⟩
    · rw [front_record_of_ne heq] at h
      exact Or.inl h
  pending other h := by
    rw [worklist_record] at h
    split at h
    · exact List.mem_append.mp h
    · exact Or.inl h
  kept other h := by
    rw [worklist_record]
    split
    · exact List.mem_append_left _ h
    · exact h
  incomparable h key := by
    by_cases heq : key = item.1
    · rw [front_record_self heq]
      exact pairwise_insertMinimal (h key)
    · rw [front_record_of_ne heq]
      exact h key

theorem Recorded.trans {first second : List (K × S)} {state middle after : Saturation K S}
    (h : Recorded first state middle) (h' : Recorded second middle after) :
    Recorded (first ++ second) state after where
  covered item hitem := h'.covered item (h.covered item hitem)
  recorded item hitem := by
    rcases List.mem_append.mp hitem with hfirst | hsecond
    · exact h'.covered item (h.recorded item hfirst)
    · exact h'.recorded item hsecond
  member item hitem := by
    rcases h'.member item hitem with hmiddle | ⟨hsecond, hpending⟩
    · rcases h.member item hmiddle with hold | ⟨hfirst, hpending⟩
      · exact Or.inl hold
      · exact Or.inr ⟨List.mem_append_left _ hfirst, h'.kept item hpending⟩
    · exact Or.inr ⟨List.mem_append_right _ hsecond, hpending⟩
  pending item hitem := by
    rcases h'.pending item hitem with hmiddle | hsecond
    · exact (h.pending item hmiddle).imp_right (List.mem_append_left _)
    · exact Or.inr (List.mem_append_right _ hsecond)
  kept item hitem := h'.kept item (h.kept item hitem)
  incomparable hstate := h'.incomparable (h.incomparable hstate)

theorem recorded_foldl (items : List (K × S)) (state : Saturation K S) :
    Recorded items state (items.foldl record state) := by
  induction items generalizing state with
  | nil => exact Recorded.nil state
  | cons item items ih => exact (recorded_record state item).trans (ih (state.record item))

/-! ### What is kept at the end -/

variable {derive : K × S → List (K × S)} {seeds : K × S → Prop} {state after : Saturation K S}

/-- The invariant: everything kept or pending follows from the seeds, and what follows from a
    seed or a kept element is covered unless that is still pending. -/
structure Saturating (derive : K × S → List (K × S)) (seeds : K × S → Prop)
    (state : Saturation K S) : Prop where
  front_follows : ∀ item : K × S, item.2 ∈ state.front item.1 → Follows derive seeds item
  pending_follows : ∀ item ∈ state.worklist, seeds item ∨ Follows derive seeds item
  incomparable : ∀ key, (state.front key).Pairwise
    fun first second => ¬ first ≤ second ∧ ¬ second ≤ first
  closed : ∀ item : K × S, seeds item ∨ item.2 ∈ state.front item.1 →
    item ∈ state.worklist ∨ ∀ next ∈ derive item, state.Covered next

theorem saturating_start {worklist : List (K × S)} (h : ∀ item, item ∈ worklist ↔ seeds item) :
    Saturating derive seeds ⟨fun _ => [], worklist⟩ where
  front_follows _ hitem := absurd hitem List.not_mem_nil
  pending_follows item hitem := Or.inl ((h item).mp hitem)
  incomparable _ := List.Pairwise.nil
  closed item hitem := by
    rcases hitem with hseed | hnone
    · exact Or.inl ((h item).mpr hseed)
    · exact absurd hnone List.not_mem_nil

theorem Saturating.step (h : Saturating derive seeds state) (hstep : Step derive state after) :
    Saturating derive seeds after := by
  cases hstep with
  | @take front worklist rest item hperm =>
    have hrecorded := recorded_foldl (derive item) ⟨front, rest⟩
    have hitem : item ∈ worklist := hperm.mem_iff.mpr (by simp)
    have hrest : ∀ other ∈ rest, other ∈ worklist :=
      fun other hother => hperm.mem_iff.mpr (List.mem_cons_of_mem _ hother)
    have hderived : ∀ next ∈ derive item, Follows derive seeds next := by
      intro next hnext
      rcases h.pending_follows item hitem with hseed | hfollows
      · exact Follows.seed hseed hnext
      · exact Follows.step hfollows hnext
    refine ⟨?_, ?_, hrecorded.incomparable h.incomparable, ?_⟩
    · intro other hother
      rcases hrecorded.member other hother with hold | ⟨hnew, _⟩
      · exact h.front_follows other hold
      · exact hderived other hnew
    · intro other hother
      rcases hrecorded.pending other hother with hold | hnew
      · exact h.pending_follows other (hrest other hold)
      · exact Or.inr (hderived other hnew)
    · intro other hother
      have hbefore : (seeds other ∨ other.2 ∈ front other.1) ∨
          other ∈ ((derive item).foldl record ⟨front, rest⟩).worklist := by
        rcases hother with hseed | hmem
        · exact Or.inl (Or.inl hseed)
        · rcases hrecorded.member other hmem with hold | ⟨_, hpending⟩
          · exact Or.inl (Or.inr hold)
          · exact Or.inr hpending
      rcases hbefore with hbefore | hpending
      · rcases h.closed other hbefore with hpending | hcovered
        · -- still pending, or it is the item that has just been processed
          rcases List.mem_cons.mp (hperm.mem_iff.mp hpending) with rfl | hmem
          · exact Or.inr hrecorded.recorded
          · exact Or.inl (hrecorded.kept other hmem)
        · exact Or.inr fun next hnext => hrecorded.covered next (hcovered next hnext)
      · exact Or.inl hpending

theorem Saturating.steps (h : Saturating derive seeds state)
    (hsteps : Relation.ReflTransGen (Step derive) state after) : Saturating derive seeds after := by
  induction hsteps with
  | refl => exact h
  | tail _ hstep ih => exact ih.step hstep

/-- From an element below, something at least as low follows. -/
def DeriveMonotone (derive : K × S → List (K × S)) : Prop :=
  ∀ {key : K} {early late : S} {next : K × S}, early ≤ late → next ∈ derive (key, late) →
    ∃ lower, (next.1, lower) ∈ derive (key, early) ∧ lower ≤ next.2

theorem Saturating.covered_of_follows (h : Saturating derive seeds state)
    (hempty : state.worklist = []) (hmono : DeriveMonotone derive) {item : K × S}
    (hitem : Follows derive seeds item) : state.Covered item := by
  have hclosed : ∀ item : K × S, seeds item ∨ item.2 ∈ state.front item.1 →
      ∀ next ∈ derive item, state.Covered next := by
    intro item hitem
    have hor := h.closed item hitem
    rw [hempty] at hor
    exact hor.resolve_left List.not_mem_nil
  induction hitem with
  | seed hseed hnext => exact hclosed _ (Or.inl hseed) _ hnext
  | @step item next _ hnext ih =>
    obtain ⟨least, hleast, hle⟩ := ih
    obtain ⟨lower, hlower, hbelow⟩ := hmono hle hnext
    obtain ⟨found, hfound, hfoundLe⟩ := hclosed (item.1, least) (Or.inr hleast) _ hlower
    exact ⟨found, hfound, hfoundLe.trans hbelow⟩

/-- What is kept when nothing is pending is the frontier of what follows from the seeds. -/
theorem Saturating.isFrontier (h : Saturating derive seeds state) (hempty : state.worklist = [])
    (hmono : DeriveMonotone derive) (key : K) :
    IsFrontier (state.front key) fun element => Follows derive seeds (key, element) where
  present_of_mem element hmem := h.front_follows (key, element) hmem
  incomparable := h.incomparable key
  covers _ hfollows := h.covered_of_follows hempty hmono hfollows

/-! ### The loop ends -/

section Terminates

variable {keys : Finset K}

/-- What is covered under each of finitely many keys. -/
def upSets (keys : Finset K) (state : Saturation K S) (key : keys) : UpperSet S :=
  upperClosure {element | element ∈ state.front key}

theorem mem_upSets {key : keys} {element : S} :
    element ∈ state.upSets keys key ↔ state.Covered (key.1, element) := by
  unfold upSets Covered
  rw [mem_upperClosure]
  rfl

theorem upSets_le_of_covered (h : ∀ item, state.Covered item → after.Covered item) :
    after.upSets keys ≤ state.upSets keys := by
  intro key element helement
  exact mem_upSets.mpr (h _ (mem_upSets.mp helement))

/-- Recording either changes nothing, or makes an up-set grow. -/
theorem record_cases (state : Saturation K S) {item : K × S} (hkey : item.1 ∈ keys) :
    state.record item = state ∨ (state.record item).upSets keys < state.upSets keys := by
  have hle : (state.record item).upSets keys ≤ state.upSets keys :=
    upSets_le_of_covered (recorded_record state item).covered
  rcases insertMinimal_cases (state.front item.1) item.2 with ⟨heq, _⟩ | ⟨_, hnone⟩
  · left
    unfold record
    rw [heq, Function.update_eq_self]
    rfl
  · right
    refine lt_of_le_not_ge hle fun hge => ?_
    have hcovered : (state.record item).Covered item :=
      (recorded_record state item).recorded item (by simp)
    have hbefore : item.2 ∈ state.upSets keys ⟨item.1, hkey⟩ :=
      hge ⟨item.1, hkey⟩ (mem_upSets.mpr hcovered)
    obtain ⟨least, hleast, hbelow⟩ := mem_upSets.mp hbefore
    exact hnone least hleast hbelow

theorem foldl_record_cases (items : List (K × S)) (state : Saturation K S)
    (hkeys : ∀ item ∈ items, item.1 ∈ keys) :
    items.foldl record state = state ∨ (items.foldl record state).upSets keys < state.upSets keys := by
  induction items generalizing state with
  | nil => exact Or.inl rfl
  | cons item items ih =>
    rw [List.foldl_cons]
    have hrest := ih (state.record item) fun other hother => hkeys other (by simp [hother])
    rcases record_cases state (hkeys item (by simp)) with hsame | hgrown
    · rwa [hsame] at hrest ⊢
    · right
      rcases hrest with hsame | hmore
      · rwa [hsame]
      · exact hmore.trans hgrown

/-- All pending items have keys in a region from which only finitely many keys follow. -/
def Inside (region : Set K) (state : Saturation K S) : Prop :=
  ∀ item ∈ state.worklist, item.1 ∈ region

theorem Inside.step {region : Set K} (h : state.Inside region)
    (hderive : ∀ item : K × S, item.1 ∈ region → ∀ next ∈ derive item, next.1 ∈ keys)
    (hregion : ∀ key ∈ keys, key ∈ region) (hstep : Step derive state after) :
    after.Inside region := by
  cases hstep with
  | @take front worklist rest item hperm =>
    intro other hother
    rcases (recorded_foldl (derive item) ⟨front, rest⟩).pending other hother with hold | hnew
    · exact h other (hperm.mem_iff.mpr (List.mem_cons_of_mem _ hold))
    · exact hregion _ (hderive item (h item (hperm.mem_iff.mpr (by simp))) other hnew)

/-- In a well-quasi-order there is no infinite sequence of iterations. -/
theorem Inside.acc [WellQuasiOrderedLE S] {region : Set K}
    (hderive : ∀ item : K × S, item.1 ∈ region → ∀ next ∈ derive item, next.1 ∈ keys)
    (hregion : ∀ key ∈ keys, key ∈ region) (h : state.Inside region) :
    Acc (fun after before => Step derive before after) state := by
  have hwf : WellFounded (Prod.Lex (· < ·) (· < ·) : (keys → UpperSet S) × ℕ → _ → Prop) :=
    WellFounded.prod_lex wellFounded_lt wellFounded_lt
  generalize hmeasure : (state.upSets keys, state.worklist.length) = measure
  induction measure using hwf.induction generalizing state with
  | _ measure ih =>
    constructor
    intro next hstep
    refine ih _ ?_ (h.step hderive hregion hstep) rfl
    subst hmeasure
    cases hstep with
    | @take front worklist rest item hperm =>
      -- a new element makes an up-set grow; otherwise the worklist gets shorter
      have hkeys : ∀ other ∈ derive item, other.1 ∈ keys :=
        hderive item (h item (hperm.mem_iff.mpr (by simp)))
      rcases foldl_record_cases (derive item) ⟨front, rest⟩ hkeys with hsame | hgrown
      · rw [hsame]
        refine Prod.Lex.right _ ?_
        change rest.length < worklist.length
        rw [hperm.length_eq, List.length_cons]
        exact Nat.lt_succ_self _
      · exact Prod.Lex.left _ _ hgrown

end Terminates

end Saturation

end Library
