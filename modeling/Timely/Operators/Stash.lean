/-
  Timely/Operators/Stash.lean
  ===========================
  **What is stashed for a time is released once.**

  An operator may stash what arrives under a time, ask to be notified of that
  time, and release the stash when it is.  Here the stash of a time is a value
  that each item is added to; `Account` says what is stashed and what has been
  released, for all items that have arrived.
-/
import Timely.Operators.Notify

set_option linter.unusedSectionVars false

namespace Timely

open Library

variable {T : Type} [PartialOrder T] [DecidableLE T] [DecidableEq T] [Ord T] [LinearExtension T]
variable [PriorityHeap (Capability T) earlier]
variable {S X R : Type}

/-- The stash without the entry of a time that is notified, and the output with what this releases. -/
def release (out : T → S → List R) (state : (AList fun _ : T => S) × List (T × R)) (time : T) :
    (AList fun _ : T => S) × List (T × R) :=
  match state.1.lookup time with
  | some stashed => (state.1.erase time, state.2 ++ (out time stashed).map fun item => (time, item))
  | none => state

/-- What is released for a time in the end, if `items` have arrived for it. -/
def released (add : S → X → S) (init : S) (out : T → S → List R) (time : T) (items : List X) : List R :=
  if items.isEmpty then [] else out time (items.foldl add init)

/-! ### The account of a stash -/

/-- For each time, either something is stashed: then it is all that has arrived, none of it has been
    released, and the time waits to be notified.  Or all that has arrived has been released, if there
    was anything, and then the frontiers are past the time. -/
structure Account (add : S → X → S) (init : S) (out : T → S → List R) (notificator : Notificator T)
    (items : List (T × X)) (emitted : List (T × R)) (stash : AList fun _ : T => S) : Prop where
  held : ∀ time stashed, stash.lookup time = some stashed →
    recordsAt time items ≠ [] ∧ stashed = (recordsAt time items).foldl add init ∧
      recordsAt time emitted = [] ∧ notificator.inner.Waiting time
  gone : ∀ time, stash.lookup time = none →
    recordsAt time emitted = released add init out time (recordsAt time items) ∧
      (recordsAt time items ≠ [] → beyond notificator.frontiers time = true)

namespace Account

variable {add : S → X → S} {init : S} {out : T → S → List R} {notificator after : Notificator T}
  {items : List (T × X)} {emitted : List (T × R)} {stash : AList fun _ : T => S}

theorem start (add : S → X → S) (init : S) (out : T → S → List R) (notificator : Notificator T) :
    Account add init out notificator [] [] ∅ where
  held time stashed hsome := by
    rw [AList.lookup_empty] at hsome
    cases hsome
  gone time _ := ⟨rfl, fun hne => absurd rfl hne⟩

/-- A stash that stays the same while what waits keeps waiting. -/
theorem mono (h : Account add init out notificator items emitted stash)
    (hwaiting : ∀ time, notificator.inner.Waiting time → after.inner.Waiting time)
    (hadvances : Advances notificator.frontiers after.frontiers) :
    Account add init out after items emitted stash where
  held time stashed hsome := by
    obtain ⟨hne, hvalue, hnone, hwait⟩ := h.held time stashed hsome
    exact ⟨hne, hvalue, hnone, hwaiting time hwait⟩
  gone time hnone := by
    obtain ⟨hemitted, hbeyond⟩ := h.gone time hnone
    exact ⟨hemitted, fun hne => hadvances.beyond (hbeyond hne)⟩

/-- An item is stashed at a time that the frontiers have not passed, and that waits from now on. -/
theorem add_item (h : Account add init out notificator items emitted stash) {time : T}
    (hnot : beyond notificator.frontiers time = false) (hwait : notificator.inner.Waiting time) (item : X) :
    Account add init out notificator (items ++ [(time, item)]) emitted
      (entry_update stash time init fun stashed => add stashed item) where
  held other stashed hsome := by
    by_cases hsame : other = time
    · subst hsame
      rw [lookup_entry_update_same] at hsome
      rw [recordsAt_append, recordsAt_singleton_same]
      refine ⟨by simp, ?_, ?_, hwait⟩
      · rw [List.foldl_append, ← Option.some.inj hsome]
        cases hlookup : stash.lookup other with
        | some before =>
          rw [(h.held other before hlookup).2.1]
          rfl
        | none =>
          have hnone : recordsAt other items = [] := by
            by_contra hne
            have hbeyond := (h.gone other hlookup).2 hne
            rw [hnot] at hbeyond
            cases hbeyond
          rw [hnone]
          rfl
      · cases hlookup : stash.lookup other with
        | some before => exact (h.held other before hlookup).2.2.1
        | none =>
          have hgone := h.gone other hlookup
          by_cases hnone : recordsAt other items = []
          · rw [hgone.1, hnone]
            rfl
          · have hbeyond := hgone.2 hnone
            rw [hnot] at hbeyond
            cases hbeyond
    · rw [lookup_entry_update_other hsame] at hsome
      rw [recordsAt_append, recordsAt_singleton_other (Ne.symm hsame), List.append_nil]
      exact h.held other stashed hsome
  gone other hnone := by
    by_cases hsame : other = time
    · subst hsame
      rw [lookup_entry_update_same] at hnone
      cases hnone
    · rw [lookup_entry_update_other hsame] at hnone
      rw [recordsAt_append, recordsAt_singleton_other (Ne.symm hsame), List.append_nil]
      exact h.gone other hnone

/-! ### Releasing -/

theorem lookup_release_self (out : T → S → List R) (stash : AList fun _ : T => S) (emitted : List (T × R))
    (time other : T) :
    (release out (stash, emitted) time).1.lookup other = if other = time then none else stash.lookup other := by
  unfold release
  dsimp only
  by_cases hsame : other = time
  · subst hsame
    rw [if_pos rfl]
    cases hlookup : stash.lookup other with
    | none => exact hlookup
    | some stashed => exact AList.lookup_erase _ _
  · rw [if_neg hsame]
    cases stash.lookup time with
    | none => rfl
    | some stashed => exact AList.lookup_erase_ne hsame

/-- What one notification releases. -/
theorem output_of_release (out : T → S → List R) (stash : AList fun _ : T => S) (emitted : List (T × R))
    (time : T) :
    (release out (stash, emitted) time).2 =
      emitted ++ ((stash.lookup time).elim [] (out time)).map fun item => (time, item) := by
  unfold release
  dsimp only
  cases stash.lookup time with
  | none => rw [Option.elim_none, List.map_nil, List.append_nil]
  | some stashed => rfl

/-- What notifications release: what is stashed for their times, once each. -/
theorem foldl_release (out : T → S → List R) (times : List T) (stash : AList fun _ : T => S)
    (emitted : List (T × R)) :
    (∀ time, (times.foldl (release out) (stash, emitted)).1.lookup time =
      if time ∈ times then none else stash.lookup time) ∧
    ∃ output, (times.foldl (release out) (stash, emitted)).2 = emitted ++ output ∧
      (∀ record ∈ output, record.1 ∈ times) ∧
      ∀ time, recordsAt time output =
        if time ∈ times then (stash.lookup time).elim [] (out time) else [] := by
  induction times generalizing stash emitted with
  | nil => exact ⟨fun time => rfl, [], (List.append_nil _).symm, fun _ hmem => absurd hmem List.not_mem_nil, fun _ => rfl⟩
  | cons first times ih =>
    rw [List.foldl_cons]
    obtain ⟨hlookup, output, houtput, htimes, hrecords⟩ :=
      ih (release out (stash, emitted) first).1 (release out (stash, emitted) first).2
    rw [Prod.mk.eta] at hlookup houtput
    refine ⟨fun time => ?_, ((stash.lookup first).elim [] (out first)).map (fun item => (first, item)) ++ output,
      ?_, ?_, fun time => ?_⟩
    · rw [hlookup, lookup_release_self]
      by_cases hfirst : time = first <;> by_cases hmem : time ∈ times <;> simp [hfirst, hmem]
    · rw [houtput, output_of_release, List.append_assoc]
    · intro record hrecord
      rcases List.mem_append.mp hrecord with hnow | hlater
      · obtain ⟨item, -, rfl⟩ := List.mem_map.mp hnow
        exact List.mem_cons_self
      · exact List.mem_cons_of_mem _ (htimes record hlater)
    · rw [recordsAt_append, hrecords, lookup_release_self]
      by_cases hfirst : time = first
      · subst hfirst
        rw [recordsAt_map_same]
        simp
      · rw [recordsAt_map_other (Ne.symm hfirst)]
        simp [hfirst]

/-- A session releases what is stashed for the times that it delivers. -/
theorem release_all (h : Account add init out notificator items emitted stash)
    {caps : List (Capability T)} (hcaps : notificator.Exhausts caps after) :
    (∀ record ∈ ((caps.map Capability.time).foldl (release out) (stash, [])).2,
      beyond notificator.frontiers record.1 = true) ∧
    Account add init out after items (emitted ++ ((caps.map Capability.time).foldl (release out) (stash, [])).2)
      ((caps.map Capability.time).foldl (release out) (stash, [])).1 := by
  have hmem : ∀ time, time ∈ caps.map Capability.time ↔
      notificator.inner.Waiting time ∧ beyond notificator.frontiers time = true :=
    fun time => List.mem_map.trans (hcaps.delivered time)
  obtain ⟨hlookup, output, houtput, htimes, hrecords⟩ :=
    foldl_release out (caps.map Capability.time) stash []
  rw [houtput, List.nil_append]
  refine ⟨fun record hrecord => ((hmem _).mp (htimes record hrecord)).2, ?_, ?_⟩
  · intro time stashed hsome
    rw [hlookup] at hsome
    split at hsome
    case isTrue => cases hsome
    case isFalse hnot =>
      obtain ⟨hne, hvalue, hnone, hwait⟩ := h.held time stashed hsome
      refine ⟨hne, hvalue, ?_, (hcaps.left time).mpr ⟨hwait, ?_⟩⟩
      · rw [recordsAt_append, hnone, hrecords, if_neg hnot]
        rfl
      · rw [hmem, not_and] at hnot
        simpa using hnot hwait
  · intro time hnone
    rw [hlookup] at hnone
    rw [recordsAt_append, hrecords, hcaps.frontiers]
    split at hnone
    case isTrue hdelivered =>
      rw [if_pos hdelivered]
      refine ⟨?_, fun _ => ((hmem time).mp hdelivered).2⟩
      cases hstash : stash.lookup time with
      | none => rw [(h.gone time hstash).1, Option.elim_none, List.append_nil]
      | some stashed =>
        obtain ⟨hne, hvalue, hbefore, -⟩ := h.held time stashed hstash
        unfold released
        rw [hbefore, hvalue, if_neg (by simpa using hne)]
        rfl
    case isFalse hnot =>
      rw [if_neg hnot, List.append_nil]
      exact h.gone time hnone

/-- A session at a later frontier. -/
theorem open_session {inner : FrontierNotificator T} {frontiers later : List (MutableAntichain T)}
    (h : Account add init out ⟨frontiers, inner⟩ items emitted stash) (hadvances : Advances frontiers later) :
    Account add init out (Notificator.new later inner) items emitted stash :=
  h.mono (fun time => (Notificator.waiting_new inner later time).mpr) hadvances

/-- The end of a turn: the operator sends what is stashed for each available notification. -/
theorem finish (h : Account add init out notificator items emitted stash) (hsession : notificator.Session) :
    ∃ left output after,
      notificator.for_each (fun state cap _ => release out state cap.time)
        (notificator.inner.available.items.length + 1) (stash, []) = ((left, output), after) ∧
      after.frontiers = notificator.frontiers ∧
      FrontierNotificator.Past (after.inner, after.frontiers) ∧
      (∀ time, after.inner.Waiting time → beyond notificator.frontiers time = false) ∧
      (∀ record ∈ output, beyond notificator.frontiers record.1 = true) ∧
      Account add init out after items (emitted ++ output) left := by
  obtain ⟨caps, hcaps, hstate⟩ := hsession.for_each (fun state cap _ => release out state cap.time)
    (Nat.lt_succ_self _) (stash, [])
  have hfold : caps.foldl (fun state cap => release out state cap.time) (stash, []) =
      (caps.map Capability.time).foldl (release out) (stash, []) := List.foldl_map.symm
  obtain ⟨hbeyond, haccount⟩ := h.release_all hcaps
  rw [← hfold, ← hstate] at hbeyond haccount
  exact ⟨_, _, _, rfl, hcaps.frontiers, hcaps.past, fun time hwait => ((hcaps.left time).mp hwait).2, hbeyond,
    haccount⟩

/-- When the frontiers are past all that waits, all that has arrived has been released. -/
theorem complete (h : Account add init out notificator items emitted stash)
    (hnone : ∀ time, ¬ notificator.inner.Waiting time) (time : T) :
    recordsAt time emitted = released add init out time (recordsAt time items) := by
  cases hstash : stash.lookup time with
  | none => exact (h.gone time hstash).1
  | some stashed => exact absurd (h.held time stashed hstash).2.2.2 (hnone time)

end Account

end Timely
