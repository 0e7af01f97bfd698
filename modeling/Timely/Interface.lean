/-
  Timely/Interface.lean
  =====================
  **What operators may do** (`timely/src/dataflow/operators/capability.rs`,
  `timely/src/dataflow/operators/generic/handles.rs`).

  An operator consumes messages, makes capabilities from consumed messages and from
  capabilities, drops them, opens sessions with them, and sends in a session.  It
  keeps its internal summary: what comes from a message at an input is no earlier
  at an output than a summary says.  What it reports is the sum of what it has done
  since it last reported.
-/
import Timely.Statements
import Timely.Library.Grounded
import Timely.Safety

set_option linter.unusedSectionVars false

namespace Timely

open Library

/-! ### Acts -/

/-- What an operator may do: consume records at an input; make a capability from a consumed message, or
    from another capability; drop one; open a session with a capability, or for a message; and send
    records in a session, at any time after it has been opened. -/
inductive OperatorAct (T : Type) where
  | consume (input : ℕ) (time : T) (records : ℕ)
  | retain (input : ℕ) (time : T) (output : ℕ) (later : T)
  | delay (output : ℕ) (time later : T)
  | drop (output : ℕ) (time : T)
  | present (output : ℕ) (time : T)
  | answer (input : ℕ) (time : T) (output : ℕ) (later : T)
  | send (output : ℕ) (time : T) (records : ℕ)

/-- The capabilities that an operator holds, the messages that it has seen, and the sessions that it has
    opened. -/
structure Holdings (T : Type) where
  held : ℕ → T → ℤ
  seen : ℕ → T → Prop
  opened : ℕ → T → Prop

/-- No message has been seen yet, and no session opened. -/
def Holdings.fresh {T : Type} (held : ℕ → T → ℤ) : Holdings T := ⟨held, fun _ _ => False, fun _ _ => False⟩

/-- More has been seen and opened, by the second of two. -/
structure Holdings.Within {T : Type} (holdings wider : Holdings T) : Prop where
  held : wider.held = holdings.held
  seen : ∀ input time, holdings.seen input time → wider.seen input time
  opened : ∀ output time, holdings.opened output time → wider.opened output time

section Acts

variable {S T : Type} [PartialOrder T] [DecidableEq T]

namespace OperatorAct

/-- The records consumed. -/
def consumed : OperatorAct T → ℕ → T → ℤ
  | .consume input time records => at_port input time records
  | _ => 0

/-- The capabilities gained. -/
def internal : OperatorAct T → ℕ → T → ℤ
  | .retain _ _ output later => at_port output later 1
  | .delay output _ later => at_port output later 1
  | .drop output time => at_port output time (-1)
  | _ => 0

/-- The records produced. -/
def produced : OperatorAct T → ℕ → T → ℤ
  | .send output time records => at_port output time records
  | _ => 0

end OperatorAct

variable [PathSummary S T]

/-- A summary says that from a time at an input there may come a later one at an output. -/
def Promised (summary : List (List (Antichain S))) (input : ℕ) (time : T) (output : ℕ) (later : T) : Prop :=
  ∃ outputs antichain path result, summary[input]? = some outputs ∧ outputs[output]? = some antichain ∧
    path ∈ antichain.elements ∧ PathSummary.results_in path time = some result ∧ result ≤ later

/-- The conditions under which an operator may do something, and what comes of it. -/
inductive OperatorAct.Done (summary : List (List (Antichain S))) :
    Holdings T → OperatorAct T → Holdings T → Prop
  | consume {holdings : Holdings T} {input : ℕ} {time : T} {records : ℕ} : 0 < records →
      OperatorAct.Done summary holdings (.consume input time records)
        { holdings with seen := fun other early => (other = input ∧ early = time) ∨ holdings.seen other early }
  | retain {holdings : Holdings T} {input : ℕ} {time : T} {output : ℕ} {later : T} :
      holdings.seen input time → Promised summary input time output later →
      OperatorAct.Done summary holdings (.retain input time output later)
        { holdings with held := holdings.held + at_port output later 1 }
  | delay {holdings : Holdings T} {output : ℕ} {time later : T} : 0 < holdings.held output time →
      time ≤ later → OperatorAct.Done summary holdings (.delay output time later)
        { holdings with held := holdings.held + at_port output later 1 }
  | drop {holdings : Holdings T} {output : ℕ} {time : T} : 0 < holdings.held output time →
      OperatorAct.Done summary holdings (.drop output time)
        { holdings with held := holdings.held + at_port output time (-1) }
  | present {holdings : Holdings T} {output : ℕ} {time : T} : 0 < holdings.held output time →
      OperatorAct.Done summary holdings (.present output time)
        { holdings with
          opened := fun other later => (other = output ∧ later = time) ∨ holdings.opened other later }
  | answer {holdings : Holdings T} {input : ℕ} {time : T} {output : ℕ} {later : T} :
      holdings.seen input time → Promised summary input time output later →
      OperatorAct.Done summary holdings (.answer input time output later)
        { holdings with
          opened := fun other last => (other = output ∧ last = later) ∨ holdings.opened other last }
  | send {holdings : Holdings T} {output : ℕ} {time : T} {records : ℕ} : holdings.opened output time →
      OperatorAct.Done summary holdings (.send output time records) holdings

/-- An operator holds what its acts have gained. -/
theorem OperatorAct.Done.held {summary : List (List (Antichain S))} {act : OperatorAct T}
    {before after : Holdings T} (h : act.Done summary before after) :
    after.held = before.held + act.internal := by
  cases h with
  | consume _ => exact (add_zero _).symm
  | retain _ _ => rfl
  | delay _ _ => rfl
  | drop _ => rfl
  | present _ => exact (add_zero _).symm
  | answer _ _ => exact (add_zero _).symm
  | send _ => exact (add_zero _).symm

/-- Having seen and opened more does not keep an operator from anything. -/
theorem OperatorAct.Done.widen {summary : List (List (Antichain S))} {act : OperatorAct T}
    {before after wider : Holdings T} (h : act.Done summary before after) (hwithin : before.Within wider) :
    ∃ last, act.Done summary wider last ∧ after.Within last := by
  obtain ⟨held, seen, opened⟩ := wider
  obtain ⟨hheld, hseen, hopened⟩ := hwithin
  obtain rfl : held = before.held := hheld
  cases h with
  | consume hrecords =>
    exact ⟨_, .consume hrecords, rfl, fun input time => Or.imp_right (hseen input time), hopened⟩
  | retain hmessage hpromised => exact ⟨_, .retain (hseen _ _ hmessage) hpromised, rfl, hseen, hopened⟩
  | delay hheld hle => exact ⟨_, .delay hheld hle, rfl, hseen, hopened⟩
  | drop hheld => exact ⟨_, .drop hheld, rfl, hseen, hopened⟩
  | present hheld =>
    exact ⟨_, .present hheld, rfl, hseen, fun output time => Or.imp_right (hopened output time)⟩
  | answer hmessage hpromised =>
    exact ⟨_, .answer (hseen _ _ hmessage) hpromised, rfl, hseen,
      fun output time => Or.imp_right (hopened output time)⟩
  | send hsession => exact ⟨_, .send (hopened _ _ hsession), rfl, hseen, hopened⟩

/-- What the acts of an operator come to. -/
structure Totals (acts : List (OperatorAct T)) (consumed internal produced : ℕ → T → ℤ) : Prop where
  consumed_eq : consumed = (acts.map OperatorAct.consumed).sum
  internal_eq : internal = (acts.map OperatorAct.internal).sum
  produced_eq : produced = (acts.map OperatorAct.produced).sum

end Acts

/-! ### Acts as deeds -/

namespace Builder

variable {S T : Type} [PartialOrder T] [PathSummary S T] {topology : Builder S}

/-- In graphs without cycles that leave timestamps as they are, pointstamps are ordered. -/
theorem Advances.precedes_isStrictOrder (hadvances : topology.Advances T)
    (hacyclic : ∀ location, ¬ topology.Cyclic T location) :
    IsStrictOrder (Location × T) topology.Precedes where
  irrefl _ h := h.1 rfl
  trans first second third h h' := by
    refine ⟨?_, h.2.trans hadvances h'.2⟩
    rintro rfl
    exact hacyclic first.1 (h.cyclic hadvances h'.2)

variable {node : ℕ} {edges : List (List Target)} {summary : List (List (Antichain S))}

/-- A target of an output comes after it. -/
theorem precedes_target (hedges : topology.edges[node]? = some edges) {output : ℕ} {target : Target}
    (htarget : target ∈ edges.getD output []) (time : T) :
    topology.Precedes (Location.new_source node output, time) (Location.from_target target, time) := by
  have htargets : topology.targets_of node output = some (edges.getD output []) := by
    unfold targets_of
    rw [hedges, Option.bind_some, List.getD_eq_getElem?_getD]
    cases houtput : edges[output]? with
    | none =>
      rw [List.getD_eq_getElem?_getD, houtput] at htarget
      exact absurd htarget List.not_mem_nil
    | some targets => rfl
  refine ⟨fun heq => ?_, CouldResultIn.of_step (Arc.edge time htargets htarget)⟩
  cases (Location.mk.inj (Prod.mk.inj heq).1).2

/-- What a summary promises at an output comes after the input. -/
theorem precedes_promised (hsummary : topology.nodes[node]? = some summary) {input output : ℕ}
    {time later : T} (h : Promised summary input time output later) :
    topology.Precedes (Location.new_target node input, time) (Location.new_source node output, later) := by
  obtain ⟨outputs, antichain, path, result, houtputs, hantichain, hpath, hresult, hle⟩ := h
  have hnode : topology.summaries_of node input = some outputs := by
    unfold summaries_of
    rw [hsummary, Option.bind_some, houtputs]
  refine ⟨fun heq => ?_, result, Path.nil.snoc (Arc.summary hnode hantichain hpath hresult), hle⟩
  cases (Location.mk.inj (Prod.mk.inj heq).1).2

/-- A later time at the same place comes after. -/
theorem precedes_later {location : Location} {time later : T} (h : time < later) :
    topology.Precedes (location, time) (location, later) :=
  ⟨fun heq => h.ne (Prod.mk.inj heq).2, time, Path.nil, h.le⟩

end Builder

section Deeds

variable {S T : Type} [PartialOrder T] [DecidableEq T] [PathSummary S T] {topology : Builder S}
  {held : Location × T → ℤ}

/-- The deeds of a worker: capabilities are what it owns. -/
abbrev DeedDone (topology : Builder S) (held : Location × T → ℤ) (before : Ledger (Location × T))
    (deed : Deed (Location × T)) (after : Ledger (Location × T)) : Prop :=
  deed.Done Cluster.capability topology.Precedes held before after

/-- Adding as much at each of some targets that come after what has been revealed. -/
theorem exists_raise_all (held : Location × T → ℤ) {origin : Location × T} {time : T} {amount : ℤ}
    (hamount : 0 ≤ amount) (targets : List Target)
    (hprecedes : ∀ target ∈ targets, topology.Precedes origin (Location.from_target target, time))
    (ledger : Ledger (Location × T)) (hrevealed : ledger.revealed origin) :
    ∃ deeds last, Run (DeedDone topology held) ledger deeds last ∧ last.revealed = ledger.revealed ∧
      ∀ key, last.change key = ledger.change key +
        ((targets.map Location.from_target).count key.1 : ℤ) * if key.2 = time then amount else 0 := by
  induction targets generalizing ledger with
  | nil => exact ⟨[], ledger, Run.nil, rfl, fun key => by simp⟩
  | cons target targets ih =>
    have hstep : DeedDone topology held ledger (.raise origin (Location.from_target target, time) amount)
        (ledger.add (Location.from_target target, time) amount) :=
      Deed.Done.raise hrevealed (hprecedes target List.mem_cons_self) hamount
    obtain ⟨deeds, last, hrun, hsame, hchange⟩ := ih
      (fun other hother => hprecedes other (List.mem_cons_of_mem _ hother))
      (ledger.add (Location.from_target target, time) amount) hrevealed
    refine ⟨_, last, (Run.nil.snoc hstep).append hrun, hsame, fun key => ?_⟩
    obtain ⟨location, other⟩ := key
    rw [hchange, List.map_cons, List.count_cons]
    by_cases hkey : (location, other) = (Location.from_target target, time)
    · obtain ⟨rfl, rfl⟩ := Prod.mk.inj hkey
      rw [Ledger.add_self]
      simp only [if_true, beq_self_eq_true]
      push_cast
      ring
    · rw [Ledger.add_of_ne _ _ hkey]
      by_cases hlocation : Location.from_target target = location
      · have htime : other ≠ time := fun htime => hkey (by rw [hlocation, htime])
        simp [htime]
      · simp [hlocation]

/-- A ledger that has the holdings of a node at its outputs, and has revealed what the node has seen, and
    what its sessions have been opened with. -/
structure Follows (topology : Builder S) (node : ℕ) (held : Location × T → ℤ) (holdings : Holdings T)
    (ledger : Ledger (Location × T)) : Prop where
  held_eq : ∀ output time, holdings.held output time =
    held (Location.new_source node output, time) + ledger.change (Location.new_source node output, time)
  revealed : ∀ input time, holdings.seen input time → ledger.revealed (Location.new_target node input, time)
  opened : ∀ output time, holdings.opened output time → ∃ origin, ledger.revealed origin ∧
    (origin = (Location.new_source node output, time) ∨
      topology.Precedes origin (Location.new_source node output, time))

/-- At its own outputs a node states its capabilities. -/
theorem statement_source (node : ℕ) (edges : List (List Target)) (consumed internal produced : ℕ → T → ℤ)
    (other output : ℕ) (time : T) :
    statement node edges consumed internal produced (Location.new_source other output, time) =
      if other = node then internal output time else 0 := by
  unfold statement
  have hsum : ∑ index ∈ Finset.range edges.length, (((edges.getD index []).map Location.from_target).count
      (Location.new_source other output) : ℤ) * produced index time = 0 := by
    refine Finset.sum_eq_zero fun index _ => ?_
    have hcount : ((edges.getD index []).map Location.from_target).count
        (Location.new_source other output) = 0 := by
      refine List.count_eq_zero.mpr fun hmem => ?_
      obtain ⟨target, _, heq⟩ := List.mem_map.mp hmem
      cases (Location.mk.inj heq).2
    rw [hcount, Nat.cast_zero, zero_mul]
  rw [hsum, add_zero]
  rfl

variable {node : ℕ} {edges : List (List Target)} {summary : List (List (Antichain S))}
  {holdings : Holdings T} {ledger after : Ledger (Location × T)}

/-- A capability more or less is one more or less in the ledger. -/
theorem Follows.add_source (h : Follows topology node held holdings ledger) (output : ℕ) (time : T) (amount : ℤ) :
    Follows topology node held { holdings with held := holdings.held + at_port output time amount }
      (ledger.add (Location.new_source node output, time) amount) where
  held_eq other later := by
    change holdings.held other later + at_port output time amount other later = _
    rw [h.held_eq]
    by_cases hkey : other = output ∧ later = time
    · obtain ⟨rfl, rfl⟩ := hkey
      rw [Ledger.add_self]
      simp [at_port, add_assoc]
    · rw [Ledger.add_of_ne _ _ (fun heq => hkey ?_)]
      · simp [at_port, hkey]
      · obtain ⟨hlocation, htime⟩ := Prod.mk.inj heq
        exact ⟨Port.source.inj (Location.mk.inj hlocation).2, htime⟩
  revealed := h.revealed
  opened := h.opened

/-- What happens away from the outputs of a node leaves its capabilities. -/
theorem Follows.of_sources (h : Follows topology node held holdings ledger)
    (hchange : ∀ output time, after.change (Location.new_source node output, time) =
      ledger.change (Location.new_source node output, time))
    (hrevealed : ∀ key, ledger.revealed key → after.revealed key) : Follows topology node held holdings after where
  held_eq output time := by rw [hchange, h.held_eq]
  revealed input time hseen := hrevealed _ (h.revealed input time hseen)
  opened output time hopened := by
    obtain ⟨origin, horigin, hbefore⟩ := h.opened output time hopened
    exact ⟨origin, hrevealed origin horigin, hbefore⟩

/-- A session is opened with what has been revealed. -/
theorem Follows.open_session (h : Follows topology node held holdings ledger) {origin : Location × T}
    {output : ℕ} {time : T} (hrevealed : ledger.revealed origin)
    (hbefore : origin = (Location.new_source node output, time) ∨
      topology.Precedes origin (Location.new_source node output, time)) :
    Follows topology node held
      { holdings with
        opened := fun other later => (other = output ∧ later = time) ∨ holdings.opened other later }
      ledger where
  held_eq := h.held_eq
  revealed := h.revealed
  opened other later hopened := by
    rcases hopened with ⟨rfl, rfl⟩ | hold
    · exact ⟨origin, hrevealed, hbefore⟩
    · exact h.opened other later hold

/-- Sending something that comes after what has been revealed. -/
theorem exists_deeds_of_sent {origin : Location × T} {output : ℕ} {time : T} (records : ℕ)
    (hprecedes : ∀ target ∈ edges.getD output [], topology.Precedes origin (Location.from_target target, time))
    (hrevealed : ledger.revealed origin) (hfollows : Follows topology node held holdings ledger) :
    ∃ deeds last, Run (DeedDone topology held) ledger deeds last ∧ Follows topology node held holdings last ∧
      ∀ key, last.change key = ledger.change key +
        statement node edges 0 0 (at_port output time (records : ℤ)) key := by
  obtain ⟨deeds, last, hrun, hsame, hchange⟩ := exists_raise_all held
    (Int.natCast_nonneg records) (edges.getD output []) hprecedes ledger hrevealed
  have hstated : ∀ key, last.change key = ledger.change key +
      statement node edges 0 0 (at_port output time (records : ℤ)) key := by
    intro key
    rw [hchange, statement_produced]
  refine ⟨deeds, last, hrun, hfollows.of_sources (fun other later => ?_) (fun key => ?_), hstated⟩
  · rw [hstated, statement_source, if_pos rfl]
    exact add_zero _
  · rw [hsame]
    exact id

/-- Each act is some deeds, which change the ledger by what the node states of it. -/
theorem exists_deeds_of_act (hedges : topology.edges[node]? = some edges)
    (hsummary : topology.nodes[node]? = some summary) (hadvances : topology.Advances T)
    (hacyclic : ∀ location, ¬ topology.Cyclic T location) {act : OperatorAct T}
    {before after : Holdings T} (h : act.Done summary before after) {ledger : Ledger (Location × T)}
    (hfollows : Follows topology node held before ledger) :
    ∃ deeds last, Run (DeedDone topology held) ledger deeds last ∧ Follows topology node held after last ∧
      ∀ key, last.change key = ledger.change key +
        statement node edges act.consumed act.internal act.produced key := by
  have horder := hadvances.precedes_isStrictOrder hacyclic
  -- a capability that is held is live in the ledger
  have hlive : ∀ {output time}, 0 < before.held output time →
      0 < held (Location.new_source node output, time) +
        ledger.change (Location.new_source node output, time) := by
    intro output time hheld
    rwa [hfollows.held_eq] at hheld
  cases h with
  | @consume input time records hrecords =>
    have hstep : DeedDone topology held ledger (.take (Location.new_target node input, time) records)
        ((ledger.add (Location.new_target node input, time) (-(records : ℤ))).with_revealed
          (Location.new_target node input, time)) :=
      Deed.Done.take (fun hown => absurd hown (by simp [Cluster.capability, Location.new_target, Location.is_source]))
        (Int.natCast_pos.mpr hrecords)
    refine ⟨_, _, Run.nil.snoc hstep, ⟨fun output other => ?_, fun port other hseen => ?_,
      fun output other hopened => ?_⟩, fun key => ?_⟩
    · rw [hfollows.held_eq]
      congr 1
      exact (Ledger.add_of_ne _ _ fun heq => by cases (Location.mk.inj (Prod.mk.inj heq).1).2).symm
    · rcases hseen with ⟨rfl, rfl⟩ | hold
      · exact Or.inl rfl
      · exact Or.inr (hfollows.revealed port other hold)
    · obtain ⟨origin, horigin, hbefore⟩ := hfollows.opened output other hopened
      exact ⟨origin, Or.inr horigin, hbefore⟩
    · rw [show OperatorAct.internal (.consume input time records) = 0 from rfl,
        show OperatorAct.produced (.consume input time records) = 0 from rfl]
      change _ = _ + statement node edges (at_port input time (records : ℤ)) 0 0 key
      rw [statement_consumed]
      rfl
  | @retain input time output later hseen hpromised =>
    have hstep : DeedDone topology held ledger
        (.raise (Location.new_target node input, time) (Location.new_source node output, later) 1)
        (ledger.add (Location.new_source node output, later) 1) :=
      Deed.Done.raise (hfollows.revealed input time hseen) (Builder.precedes_promised hsummary hpromised)
        Int.one_nonneg
    refine ⟨_, _, Run.nil.snoc hstep, hfollows.add_source output later 1, fun key => ?_⟩
    change _ = _ + statement node edges 0 (at_port output later 1) 0 key
    rw [statement_internal]
    rfl
  | @delay output time later hheld hle =>
    have hstated : ∀ key, (ledger.add (Location.new_source node output, later) 1).change key =
        ledger.change key + statement node edges 0 (at_port output later 1) 0 key := by
      intro key
      rw [statement_internal]
      rfl
    by_cases heq : time = later
    · subst heq
      have hstep : DeedDone topology held ledger (.copy (Location.new_source node output, time))
          (ledger.add (Location.new_source node output, time) 1) := Deed.Done.copy rfl (hlive hheld)
      exact ⟨_, _, Run.nil.snoc hstep, hfollows.add_source output time 1, hstated⟩
    · have hfirst : DeedDone topology held ledger (.reveal (Location.new_source node output, time))
          (ledger.with_revealed (Location.new_source node output, time)) := Deed.Done.reveal rfl (hlive hheld)
      have hsecond : DeedDone topology held (ledger.with_revealed (Location.new_source node output, time))
          (.raise (Location.new_source node output, time) (Location.new_source node output, later) 1)
          ((ledger.with_revealed (Location.new_source node output, time)).add
            (Location.new_source node output, later) 1) :=
        Deed.Done.raise (Or.inl rfl) (Builder.precedes_later (lt_of_le_of_ne hle heq)) Int.one_nonneg
      refine ⟨_, _, (Run.nil.snoc hfirst).snoc hsecond, ?_, hstated⟩
      have hrevealed : Follows topology node held before
          (ledger.with_revealed (Location.new_source node output, time)) :=
        hfollows.of_sources (fun _ _ => rfl) fun _ => Or.inr
      exact hrevealed.add_source output later 1
  | @drop output time hheld =>
    have hstep : DeedDone topology held ledger (.drop (Location.new_source node output, time))
        (ledger.add (Location.new_source node output, time) (-1)) := Deed.Done.drop rfl (hlive hheld)
    refine ⟨_, _, Run.nil.snoc hstep, hfollows.add_source output time (-1), fun key => ?_⟩
    change _ = _ + statement node edges 0 (at_port output time (-1)) 0 key
    rw [statement_internal]
    rfl
  | @present output time hheld =>
    have hstep : DeedDone topology held ledger (.reveal (Location.new_source node output, time))
        (ledger.with_revealed (Location.new_source node output, time)) := Deed.Done.reveal rfl (hlive hheld)
    have hrevealed : Follows topology node held before
        (ledger.with_revealed (Location.new_source node output, time)) :=
      hfollows.of_sources (fun _ _ => rfl) fun _ => Or.inr
    refine ⟨_, _, Run.nil.snoc hstep, hrevealed.open_session (Or.inl rfl) (Or.inl rfl), fun key => ?_⟩
    exact ((add_right_inj _).mpr (statement_zero node edges key)).trans (add_zero _) |>.symm
  | @answer input time output later hseen hpromised =>
    refine ⟨[], ledger, Run.nil, hfollows.open_session (hfollows.revealed input time hseen)
      (Or.inr (Builder.precedes_promised hsummary hpromised)), fun key => ?_⟩
    exact ((add_right_inj _).mpr (statement_zero node edges key)).trans (add_zero _) |>.symm
  | @send output time records hopened =>
    obtain ⟨origin, hrevealed, hbefore⟩ := hfollows.opened output time hopened
    refine exists_deeds_of_sent records (fun target htarget => ?_) hrevealed hfollows
    have htarget := Builder.precedes_target hedges htarget time
    rcases hbefore with rfl | hbefore
    · exact htarget
    · exact trans_of topology.Precedes hbefore htarget

/-- So is any number of acts. -/
theorem exists_deeds_of_acts (hedges : topology.edges[node]? = some edges)
    (hsummary : topology.nodes[node]? = some summary) (hadvances : topology.Advances T)
    (hacyclic : ∀ location, ¬ topology.Cyclic T location) {acts : List (OperatorAct T)}
    {before after : Holdings T} (h : Run (OperatorAct.Done summary) before acts after)
    {consumed internal produced : ℕ → T → ℤ} (htotals : Totals acts consumed internal produced)
    {ledger : Ledger (Location × T)} (hfollows : Follows topology node held before ledger) :
    ∃ deeds last, Run (DeedDone topology held) ledger deeds last ∧ Follows topology node held after last ∧
      ∀ key, last.change key = ledger.change key +
        statement node edges consumed internal produced key := by
  rw [htotals.consumed_eq, htotals.internal_eq, htotals.produced_eq]
  refine h.invariant (P := fun acts after => ∃ deeds last, Run (DeedDone topology held) ledger deeds last ∧
    Follows topology node held after last ∧ ∀ key, last.change key = ledger.change key +
      statement node edges (acts.map OperatorAct.consumed).sum (acts.map OperatorAct.internal).sum
        (acts.map OperatorAct.produced).sum key) ?_ ?_
  · refine ⟨[], ledger, Run.nil, hfollows, fun key => ?_⟩
    exact ((add_right_inj _).mpr (statement_zero node edges key)).trans (add_zero _) |>.symm
  · rintro acts middle act after ⟨deeds, last, hrun, hmiddle, hchange⟩ hact
    obtain ⟨more, next, hnext, hafter, hmore⟩ :=
      exists_deeds_of_act hedges hsummary hadvances hacyclic hact hmiddle
    refine ⟨_, next, hrun.append hnext, hafter, fun key => ?_⟩
    rw [hmore, hchange]
    simp only [List.map_append, List.map_singleton, List.sum_append, List.sum_singleton]
    rw [statement_add, add_assoc]

end Deeds

/-! ### Operators -/

section Operators

variable {O S T : Type} [PartialOrder T] [DecidableLE T] [DecidableEq T] [Ord T] [LinearExtension T]
  [PathSummary S T]

/-- Having seen and opened more does not keep an operator from a run of acts. -/
theorem run_widen {summary : List (List (Antichain S))} {acts : List (OperatorAct T)}
    {before after : Holdings T} (wider : Holdings T) (h : Run (OperatorAct.Done summary) before acts after)
    (hwithin : before.Within wider) :
    ∃ last, Run (OperatorAct.Done summary) wider acts last ∧ after.Within last := by
  refine h.invariant (P := fun acts after => ∃ last, Run (OperatorAct.Done summary) wider acts last ∧
    after.Within last) ?_ ?_
  · exact ⟨wider, Run.nil, hwithin⟩
  · rintro acts middle act after ⟨last, hrun, hmiddle⟩ hact
    obtain ⟨next, hnext, hafter⟩ := hact.widen hmiddle
    exact ⟨next, hrun.snoc hnext, hafter⟩

/-- Acts after which an operator holds what is said, from holding what it holds. -/
structure Acted (summary : List (List (Antichain S))) (held : ℕ → T → ℤ) (acts : List (OperatorAct T))
    (held' : ℕ → T → ℤ) : Prop where
  run : ∃ last, Run (OperatorAct.Done summary) (Holdings.fresh held) acts last ∧ last.held = held'

theorem Acted.append {summary : List (List (Antichain S))} {held held' held'' : ℕ → T → ℤ}
    {acts more : List (OperatorAct T)} (h : Acted summary held acts held')
    (h' : Acted summary held' more held'') : Acted summary held (acts ++ more) held'' := by
  obtain ⟨middle, hrun, hmiddle⟩ := h.run
  obtain ⟨last, hmore, hlast⟩ := h'.run
  obtain ⟨wider, hwider, hwithin⟩ := run_widen middle hmore ⟨hmiddle, fun _ _ => False.elim,
    fun _ _ => False.elim⟩
  exact ⟨wider, hrun.append hwider, hwithin.held.trans hlast⟩

/-- An operator holds what its acts have gained. -/
theorem Acted.held_eq {summary : List (List (Antichain S))} {held held' : ℕ → T → ℤ}
    {acts : List (OperatorAct T)} (h : Acted summary held acts held') :
    held' = held + (acts.map OperatorAct.internal).sum := by
  obtain ⟨last, hrun, rfl⟩ := h.run
  refine hrun.invariant (P := fun acts last => last.held = held + (acts.map OperatorAct.internal).sum) ?_ ?_
  · exact (add_zero held).symm
  · intro acts middle act after hmiddle hact
    rw [hact.held, hmiddle, List.map_append, List.sum_append, List.map_singleton, List.sum_singleton,
      add_assoc]

/-- Nothing has been done. -/
theorem acted_nil (summary : List (List (Antichain S))) (held : ℕ → T → ℤ) :
    Acted summary held [] held :=
  ⟨_, Run.nil, rfl⟩

/-- Batches that have been drained sum up to nothing. -/
theorem sums_drained (batches : List (ChangeBatch T)) : sums (drained batches) = 0 := by
  funext port time
  unfold sums Subgraph.waiting drained
  rw [List.getElem?_map]
  cases batches[port]? with
  | none => exact ChangeBatch.value_new time
  | some batch => rfl

theorem Totals.append {acts more : List (OperatorAct T)}
    {consumed internal produced consumed' internal' produced' : ℕ → T → ℤ}
    (h : Totals acts consumed internal produced) (h' : Totals more consumed' internal' produced') :
    Totals (acts ++ more) (consumed + consumed') (internal + internal') (produced + produced') where
  consumed_eq := by rw [h.consumed_eq, h'.consumed_eq, List.map_append, List.sum_append]
  internal_eq := by rw [h.internal_eq, h'.internal_eq, List.map_append, List.sum_append]
  produced_eq := by rw [h.produced_eq, h'.produced_eq, List.map_append, List.sum_append]

/-- Shared progress for so many inputs and outputs. -/
structure SharedProgress.Shaped (shared : SharedProgress T) (inputs outputs : ℕ) : Prop where
  consumeds : shared.consumeds.length = inputs
  internals : shared.internals.length = outputs
  produceds : shared.produceds.length = outputs

variable [Operate O T]

/-- Operators that keep to the interface: it says what they hold, how many ports they have and which
    summaries they keep, and that each call of an operator is a run of acts, which it reports. -/
structure Interface (O S T : Type) [PartialOrder T] [DecidableLE T] [DecidableEq T] [Ord T]
    [LinearExtension T] [PathSummary S T] [Operate O T] where
  held : O → ℕ → T → ℤ
  inputs : O → ℕ
  outputs : O → ℕ
  Keeps : O → List (List (Antichain S)) → Prop
  call : ∀ {operator operator' : O} {shared shared' : SharedProgress T}
    {summary : List (List (Antichain S))}, Keeps operator summary →
    shared.Shaped (inputs operator) (outputs operator) → Subgraph.Calls operator shared operator' shared' →
    Keeps operator' summary ∧ shared'.Shaped (inputs operator') (outputs operator') ∧
      ∃ acts, Acted summary (held operator) acts (held operator') ∧
      Totals acts (sums shared'.consumeds - sums shared.consumeds)
        (sums shared'.internals - sums shared.internals) (sums shared'.produceds - sums shared.produceds)

/-- An operator of either of two kinds is called as one of its kind. -/
theorem calls_cases {A B : Type} [Operate A T] [Operate B T] {operator operator' : A ⊕ B}
    {shared shared' : SharedProgress T} (h : Subgraph.Calls operator shared operator' shared') :
    (∃ first first', operator = Sum.inl first ∧ operator' = Sum.inl first' ∧
      Subgraph.Calls first shared first' shared') ∨
    ∃ second second', operator = Sum.inr second ∧ operator' = Sum.inr second' ∧
      Subgraph.Calls second shared second' shared' := by
  rcases h with ⟨flag, hcall⟩ | hcall
  · cases operator with
    | inl first =>
      obtain ⟨outcome, houtcome, heq⟩ := Option.map_eq_some_iff.mp hcall
      cases heq
      exact Or.inl ⟨first, _, rfl, rfl, Or.inl ⟨_, houtcome⟩⟩
    | inr second =>
      obtain ⟨outcome, houtcome, heq⟩ := Option.map_eq_some_iff.mp hcall
      cases heq
      exact Or.inr ⟨second, _, rfl, rfl, Or.inl ⟨_, houtcome⟩⟩
  · cases operator with
    | inl first =>
      obtain ⟨outcome, houtcome, heq⟩ := Option.map_eq_some_iff.mp hcall
      cases heq
      exact Or.inl ⟨first, _, rfl, rfl, Or.inr houtcome⟩
    | inr second =>
      obtain ⟨outcome, houtcome, heq⟩ := Option.map_eq_some_iff.mp hcall
      cases heq
      exact Or.inr ⟨second, _, rfl, rfl, Or.inr houtcome⟩

/-- Operators of two kinds that keep to the interface, in one graph. -/
def Interface.sum {A B : Type} [Operate A T] [Operate B T] (first : Interface A S T)
    (second : Interface B S T) : Interface (A ⊕ B) S T where
  held := Sum.elim first.held second.held
  inputs := Sum.elim first.inputs second.inputs
  outputs := Sum.elim first.outputs second.outputs
  Keeps := Sum.elim first.Keeps second.Keeps
  call := by
    intro operator operator' shared shared' summary hkeeps hshaped hcall
    rcases calls_cases hcall with ⟨_, _, rfl, rfl, hown⟩ | ⟨_, _, rfl, rfl, hown⟩
    · exact first.call hkeeps hshaped hown
    · exact second.call hkeeps hshaped hown

variable {face : Interface O S T} {held : ℕ → T → ℤ} {child changed : PerOperatorState O S T}

/-- What a child has done since its parent has last extracted its reports, with what it has held then. -/
structure Pending (face : Interface O S T) (held : ℕ → T → ℤ) (child : PerOperatorState O S T) : Prop where
  keeps : ∀ operator, child.operator = some operator → face.Keeps operator child.internal_summary
  shaped : ∀ operator, child.operator = some operator →
    child.shared_progress.Shaped (face.inputs operator) (face.outputs operator)
  acted : ∃ acts held', Acted child.internal_summary held acts held' ∧
    Totals acts (sums child.shared_progress.consumeds) (sums child.shared_progress.internals)
      (sums child.shared_progress.produceds) ∧
    ∀ operator, child.operator = some operator → face.held operator = held'

/-- A call adds to what a child has done. -/
theorem Pending.call (h : Pending face held child) {operator operator' : O} {shared' : SharedProgress T}
    (hoperator : child.operator = some operator)
    (hcall : Subgraph.Calls operator child.shared_progress operator' shared') :
    Pending face held { child with operator := some operator', shared_progress := shared' } := by
  obtain ⟨acts, held', hacted, htotals, hheld⟩ := h.acted
  obtain rfl := hheld operator hoperator
  obtain ⟨hkeeps, hshaped, more, hmore, hadded⟩ :=
    face.call (h.keeps operator hoperator) (h.shaped operator hoperator) hcall
  refine ⟨fun other hother => ?_, fun other hother => ?_, acts ++ more, face.held operator',
    hacted.append hmore, ?_, fun other hother => ?_⟩
  · cases hother
    exact hkeeps
  · cases hother
    exact hshaped
  · have hsums := htotals.append hadded
    simp only [add_sub_cancel] at hsums
    exact hsums
  · cases hother
    rfl

theorem Pending.told (h : Pending face held child) (htold : Subgraph.Told child changed) :
    Pending face held changed := by
  rcases htold with rfl | ⟨operator, operator', shared, hoperator, hset, rfl⟩
  · exact h
  · exact h.call hoperator (Or.inr hset)

theorem Pending.scheduled (h : Pending face held child) {flag : Bool} {scheduled : PerOperatorState O S T}
    (hschedule : child.schedule = some (flag, scheduled)) : Pending face held scheduled := by
  unfold PerOperatorState.schedule at hschedule
  split at hschedule
  case h_1 operator hoperator =>
    obtain ⟨⟨result, operator', shared⟩, hcall, heq⟩ := Option.map_eq_some_iff.mp hschedule
    obtain ⟨-, rfl⟩ := Prod.mk.inj heq
    exact h.call hoperator (Or.inl ⟨result, hcall⟩)
  case h_2 hnone =>
    split at hschedule
    · cases hschedule
    · cases hschedule
      exact ⟨h.keeps, fun operator hoperator => ⟨(h.shaped operator hoperator).consumeds,
        (h.shaped operator hoperator).internals, (h.shaped operator hoperator).produceds⟩, h.acted⟩

/-- When the reports of a child have been extracted, nothing that it has done remains. -/
theorem Pending.extracted {scheduled extracted : PerOperatorState O S T} (h : Pending face held scheduled)
    (hextracted : Subgraph.Extracted child scheduled extracted)
    (hsummary : scheduled.internal_summary = extracted.internal_summary) :
    Pending face (held + sums scheduled.shared_progress.internals) extracted := by
  obtain ⟨acts, held', hacted, htotals, hheld⟩ := h.acted
  have hsums : held + sums scheduled.shared_progress.internals = held' := by
    rw [hacted.held_eq, htotals.internal_eq]
  -- an operator that is there after is the one that has been scheduled
  have hoperator : ∀ operator, extracted.operator = some operator →
      scheduled.operator = some operator := by
    intro operator hoperator
    rcases hextracted.operator with hkept | hnone
    · rw [← hkept, hoperator]
    · rw [hnone] at hoperator
      cases hoperator
  refine ⟨fun operator hafter => ?_, fun operator hafter => ?_, [], held', ?_, ⟨?_, ?_, ?_⟩,
    fun operator hafter => ?_⟩
  · rw [← hsummary]
    exact h.keeps operator (hoperator operator hafter)
  · obtain ⟨hconsumeds, hinternals, hproduceds⟩ := h.shaped operator (hoperator operator hafter)
    refine ⟨?_, ?_, ?_⟩
    · rw [hextracted.consumeds, length_drained, hconsumeds]
    · rw [hextracted.internals, length_drained, hinternals]
    · rw [hextracted.produceds, length_drained, hproduceds]
  · rw [hsums]
    exact acted_nil _ _
  · rw [hextracted.consumeds]
    exact sums_drained _
  · rw [hextracted.internals]
    exact sums_drained _
  · rw [hextracted.produceds]
    exact sums_drained _
  · exact hheld operator (hoperator operator hafter)

/-- Frontier changes that wait for a child do not matter. -/
theorem Pending.of_stated (h : Pending face held child) (heq : changed.stated = child.stated) :
    Pending face held changed := by
  have hoperator : changed.stated.operator = child.stated.operator := by rw [heq]
  have hsummary : changed.stated.internal_summary = child.stated.internal_summary := by rw [heq]
  have hconsumeds : changed.stated.shared_progress.consumeds = child.stated.shared_progress.consumeds := by
    rw [heq]
  have hinternals : changed.stated.shared_progress.internals = child.stated.shared_progress.internals := by
    rw [heq]
  have hproduceds : changed.stated.shared_progress.produceds = child.stated.shared_progress.produceds := by
    rw [heq]
  change changed.operator = child.operator at hoperator
  change changed.internal_summary = child.internal_summary at hsummary
  change changed.shared_progress.consumeds = child.shared_progress.consumeds at hconsumeds
  change changed.shared_progress.internals = child.shared_progress.internals at hinternals
  change changed.shared_progress.produceds = child.shared_progress.produceds at hproduceds
  refine ⟨?_, fun operator hafter => ?_, ?_⟩
  · rw [hoperator, hsummary]
    exact h.keeps
  · rw [hoperator] at hafter
    obtain ⟨hinputs, hheld, houtputs⟩ := h.shaped operator hafter
    refine ⟨?_, ?_, ?_⟩
    · rw [hconsumeds, hinputs]
    · rw [hinternals, hheld]
    · rw [hproduceds, houtputs]
  · rw [hoperator, hsummary, hconsumeds, hinternals, hproduceds]
    exact h.acted

end Operators

end Timely
