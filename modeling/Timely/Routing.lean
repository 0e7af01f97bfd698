/-
  Timely/Routing.lean
  ===================
  **Every record to the worker it hashes to**
  (`timely/src/dataflow/channels/pushers/exchange.rs`).

  An exchange buffers records for each target, all at one time, and pushes a
  buffer when it is full, when the time changes, and when it is told to flush.
  Whatever buffers the targets hand back, after a flush each of them has received
  the records that hash to it, in the order in which they were pushed.
-/
import Timely.Channels

set_option linter.unusedSectionVars false

namespace Timely

namespace Channels

variable {P T D : Type} [Push P T D] [Allocator P]

/-- Distributes records among target pushees according to a distribution function.  Each target
    has a buffer, whose records have the current time. -/
structure Exchange (P T D : Type) where
  targets : List (Outlet P D)
  current : Option T
  hash_func : T → D → ℕ

namespace Exchange

/-- Allocates a new exchange from a set of pushers and a distribution function. -/
def new (pushers : List P) (key : T → D → ℕ) : Exchange P T D where
  targets := pushers.map fun pusher => ⟨with_capacity pusher default_length, pusher⟩
  current := none
  hash_func := key

/-- The target of a record: if the number of pushers is a power of two, use a mask, else the
    remainder. -/
def index (exchange : Exchange P T D) (time : T) (datum : D) : ℕ :=
  let len := exchange.targets.length
  if len &&& (len - 1) = 0 then exchange.hash_func time datum &&& (len - 1)
  else exchange.hash_func time datum % len

/-- Buffers a record for its target, and pushes the buffer if it is full. -/
def push_datum (time : T) (exchange : Exchange P T D) (datum : D) : Exchange P T D :=
  { exchange with
    targets := exchange.targets.modify (exchange.index time datum) fun target =>
      target.give exchange.current datum }

/-- Pushes all buffers. -/
def flush_all (exchange : Exchange P T D) : Exchange P T D :=
  { exchange with targets := exchange.targets.map fun target => target.flush exchange.current }

variable [DecidableEq T]

/-- Distributes a message.  What is left of it is its vector, without the records. -/
def distribute (exchange : Exchange P T D) (bundle : Bundle T D) : Exchange P T D × Option (Bundle T D) :=
  -- if the time isn't right, flush everything
  let timed := if exchange.current.any fun time => time ≠ bundle.time then exchange.flush_all else exchange
  (bundle.data.data.foldl (push_datum bundle.time) { timed with current := some bundle.time },
    some ⟨bundle.time, bundle.data.clear, true⟩)

/-- Pushes all buffers, each followed by a `none`. -/
def finish (exchange : Exchange P T D) : Exchange P T D :=
  { exchange with
    targets := exchange.targets.map fun target =>
      ⟨(target.flush exchange.current).buffer,
        (Push.push (target.flush exchange.current).pusher (none : Option (Bundle T D))).1⟩ }

/-- Pushes a message, or `none` to flush. -/
def push (exchange : Exchange P T D) (message : Option (Bundle T D)) : Exchange P T D × Option (Bundle T D) :=
  match exchange.targets with
  | [target] =>
    -- if only one pusher, no exchange
    let pushed := Push.push target.pusher message
    ({ exchange with targets := [⟨target.buffer, pushed.1⟩] }, pushed.2)
  | _ =>
    match message with
    | some bundle => exchange.distribute bundle
    | none => (exchange.finish, none)

instance : Push (Exchange P T D) T D := ⟨push⟩

theorem push_to_one {exchange : Exchange P T D} {target : Outlet P D} (htargets : exchange.targets = [target])
    (message : Option (Bundle T D)) :
    (exchange.push message).1
      = { exchange with targets := [⟨target.buffer, (Push.push target.pusher message).1⟩] } := by
  unfold push
  rw [htargets]

theorem push_to_many {exchange : Exchange P T D} (hmany : exchange.targets.length ≠ 1)
    (message : Option (Bundle T D)) :
    exchange.push message = message.elim (exchange.finish, none) exchange.distribute := by
  unfold push
  split
  case h_1 target htargets => exact absurd (congrArg List.length htargets) hmany
  case h_2 => cases message <;> rfl

/-! ### Which target -/

theorem mask_eq_mod {n : ℕ} (hpositive : 0 < n) (hmask : n &&& (n - 1) = 0) (hash : ℕ) :
    hash &&& (n - 1) = hash % n := by
  obtain ⟨exponent, rfl⟩ := (Nat.and_sub_one_eq_zero_iff_isPowerOfTwo hpositive.ne').mp hmask
  exact Nat.and_two_pow_sub_one_eq_mod hash exponent

/-- With or without the mask it is the remainder. -/
theorem index_eq_mod {exchange : Exchange P T D} (hsome : 0 < exchange.targets.length) (time : T) (datum : D) :
    exchange.index time datum = exchange.hash_func time datum % exchange.targets.length := by
  unfold index
  dsimp only
  split
  case isTrue hmask => exact mask_eq_mod hsome hmask _
  case isFalse => rfl

/-! ### What each target has been given -/

/-- The records that hash to a target. -/
def share (hash : T → D → ℕ) (count : ℕ) (i : ℕ) (records : List (T × D)) : List (T × D) :=
  records.filter fun record => hash record.1 record.2 % count = i

theorem share_append (hash : T → D → ℕ) (count i : ℕ) (records more : List (T × D)) :
    share hash count i (records ++ more) = share hash count i records ++ share hash count i more :=
  List.filter_append _ _

/-- Each target has been given its share, and no time has been opened if there is only one. -/
structure Routed (holds : P → List (T × D) → Prop) (hash : T → D → ℕ) (count : ℕ)
    (exchange : Exchange P T D) (records : List (T × D)) : Prop where
  hash_func : exchange.hash_func = hash
  length : exchange.targets.length = count
  idle : exchange.current = none → ∀ target ∈ exchange.targets, target.buffer.data = []
  single : count = 1 → exchange.current = none
  shares : ∀ i target, exchange.targets[i]? = some target →
    Outlet.Given holds exchange.current target (share hash count i records)

variable {holds : P → List (T × D) → Prop} {hash : T → D → ℕ} {count : ℕ} {exchange : Exchange P T D}
  {records : List (T × D)}

theorem Routed.flush (hrouted : Routed holds hash count exchange records) (h : Accounts holds) {i : ℕ}
    {target : Outlet P D} (htarget : exchange.targets[i]? = some target) :
    (target.flush exchange.current).buffer.data = [] ∧
      holds (target.flush exchange.current).pusher (share hash count i records) :=
  (hrouted.shares i target htarget).flush h
    fun hnone => hrouted.idle hnone target (List.mem_of_getElem? htarget)

/-- Where the buffers are empty, or their time is this one, the time can be opened. -/
theorem Routed.at_time (hrouted : Routed holds hash count exchange records) {time : T} (hmany : count ≠ 1)
    (htime : exchange.current = some time ∨ ∀ target ∈ exchange.targets, target.buffer.data = []) :
    Routed holds hash count { exchange with current := some time } records := by
  refine ⟨hrouted.hash_func, hrouted.length, fun hnone => absurd hnone (Option.some_ne_none time),
    fun hone => absurd hone hmany, fun i target htarget => ?_⟩
  have hgiven := hrouted.shares i target htarget
  rcases htime with hcurrent | hempty
  · rwa [hcurrent] at hgiven
  · have hempty := hempty target (List.mem_of_getElem? htarget)
    exact Outlet.given_of_empty hempty (hgiven.holds_of_empty hempty) (some time)

/-- An act that empties the buffer of each target, so that its pusher holds its share. -/
theorem Routed.map (hrouted : Routed holds hash count exchange records) {act : Outlet P D → Outlet P D}
    (hact : ∀ i target, exchange.targets[i]? = some target →
      (act target).buffer.data = [] ∧ holds (act target).pusher (share hash count i records)) :
    Routed holds hash count { exchange with targets := exchange.targets.map act } records
    ∧ ∀ target ∈ exchange.targets.map act, target.buffer.data = [] := by
  have hempty : ∀ target ∈ exchange.targets.map act, target.buffer.data = [] := by
    intro after hafter
    obtain ⟨target, htarget, rfl⟩ := List.mem_map.mp hafter
    obtain ⟨i, hi⟩ := List.mem_iff_getElem?.mp htarget
    exact (hact i target hi).1
  refine ⟨⟨hrouted.hash_func, (List.length_map _).trans hrouted.length, fun _ => hempty, hrouted.single,
    fun i after hafter => ?_⟩, hempty⟩
  change (exchange.targets.map act)[i]? = some after at hafter
  rw [List.getElem?_map] at hafter
  obtain ⟨target, htarget, rfl⟩ := Option.map_eq_some_iff.mp hafter
  obtain ⟨hnothing, hholds⟩ := hact i target htarget
  exact Outlet.given_of_empty hnothing hholds exchange.current

theorem Routed.flush_all (hrouted : Routed holds hash count exchange records) (h : Accounts holds) :
    Routed holds hash count exchange.flush_all records
    ∧ ∀ target ∈ exchange.flush_all.targets, target.buffer.data = [] :=
  hrouted.map fun _ _ htarget => hrouted.flush h htarget

/-- A record is given to the target it hashes to. -/
theorem Routed.push_datum (hrouted : Routed holds hash count exchange records) (h : Accounts holds)
    (hsome : 0 < count) {time : T} (hcurrent : exchange.current = some time) (datum : D) :
    Routed holds hash count (exchange.push_datum time datum) (records ++ [(time, datum)]) := by
  have hindex : exchange.index time datum = hash time datum % count := by
    rw [index_eq_mod (hrouted.length ▸ hsome), hrouted.hash_func, hrouted.length]
  refine ⟨hrouted.hash_func, (List.length_modify _ _ _).trans hrouted.length,
    fun hnone => absurd (hcurrent.symm.trans hnone) (Option.some_ne_none time), hrouted.single,
    fun i given hgiven => ?_⟩
  change (exchange.targets.modify _ _)[i]? = some given at hgiven
  rw [List.getElem?_modify, hindex] at hgiven
  obtain ⟨target, htarget, rfl⟩ := Option.map_eq_some_iff.mp hgiven
  have hbefore := hrouted.shares i target htarget
  change Outlet.Given holds exchange.current _ _
  rw [hcurrent] at hbefore ⊢
  rw [share_append]
  by_cases hhere : hash time datum % count = i
  · have hshare : share hash count i [(time, datum)] = [(time, datum)] :=
      List.filter_cons_of_pos (by simpa using hhere)
    rw [hshare, if_pos hhere]
    exact hbefore.give h datum
  · have hshare : share hash count i [(time, datum)] = [] :=
      List.filter_cons_of_neg (by simpa using hhere)
    rw [hshare, List.append_nil, if_neg hhere]
    exact hbefore

theorem Routed.foldl_push_datum (hrouted : Routed holds hash count exchange records) (h : Accounts holds)
    (hsome : 0 < count) {time : T} (hcurrent : exchange.current = some time) (data : List D) :
    Routed holds hash count (data.foldl (Exchange.push_datum time) exchange)
      (records ++ data.map fun datum => (time, datum)) := by
  induction data generalizing exchange records with
  | nil => rwa [List.map_nil, List.append_nil]
  | cons datum data ih =>
    have hrest := ih (hrouted.push_datum h hsome hcurrent datum) hcurrent
    rwa [List.append_assoc] at hrest

/-- A message is distributed at its own time. -/
theorem Routed.distribute (hrouted : Routed holds hash count exchange records) (h : Accounts holds)
    (hmany : 1 < count) (bundle : Bundle T D) :
    Routed holds hash count (exchange.distribute bundle).1 (records ++ bundle.records) := by
  obtain ⟨hflushed, hempty⟩ := hrouted.flush_all h
  have htimed : Routed holds hash count
      { (if exchange.current.any fun time => time ≠ bundle.time then exchange.flush_all else exchange) with
        current := some bundle.time } records := by
    split
    case isTrue => exact hflushed.at_time hmany.ne' (Or.inr hempty)
    case isFalse hsame =>
      apply hrouted.at_time hmany.ne'
      cases hcurrent : exchange.current with
      | none => exact Or.inr (hrouted.idle hcurrent)
      | some time =>
        rw [hcurrent, Option.any_some, decide_eq_true_eq, not_not] at hsame
        exact Or.inl (congrArg some hsame)
  exact htimed.foldl_push_datum h (Nat.zero_lt_of_lt hmany) rfl bundle.data.data

/-- Finishing pushes all buffers. -/
theorem Routed.finish (hrouted : Routed holds hash count exchange records) (h : Accounts holds) :
    Routed holds hash count exchange.finish records := by
  refine (hrouted.map fun i target htarget => ?_).1
  obtain ⟨hnothing, hholds⟩ := hrouted.flush h htarget
  exact ⟨hnothing, h.push_none hholds⟩

/-- A single target is handed the message itself. -/
theorem Routed.push_single (hrouted : Routed holds hash count exchange records) {target : Outlet P D}
    (htarget : exchange.targets = [target]) {pusher : P} {more : List (T × D)}
    (hpusher : holds target.pusher records → holds pusher (records ++ more)) :
    Routed holds hash count { exchange with targets := [⟨target.buffer, pusher⟩] } (records ++ more) := by
  obtain rfl : 1 = count := by rw [← hrouted.length, htarget, List.length_singleton]
  have hcurrent := hrouted.single rfl
  have hempty : target.buffer.data = [] := hrouted.idle hcurrent target (by simp [htarget])
  have hshare : ∀ list : List (T × D), share hash 1 0 list = list :=
    fun list => List.filter_eq_self.mpr fun record _ => by simp [Nat.mod_one]
  have hgiven := hrouted.shares 0 target (by rw [htarget]; rfl)
  rw [hshare] at hgiven
  refine ⟨hrouted.hash_func, rfl, fun _ other hother => ?_, fun _ => hcurrent, fun i other hother => ?_⟩
  · rw [List.mem_singleton.mp hother]
    exact hempty
  · cases i with
    | zero =>
      cases hother
      rw [hshare]
      exact Outlet.given_of_empty hempty (hpusher (hgiven.holds_of_empty hempty)) exchange.current
    | succ i => cases hother

/-- What is pushed at an exchange is given to the targets, to each its share. -/
theorem accounts {holds : P → List (T × D) → Prop} (h : Accounts holds) (hash : T → D → ℕ) {count : ℕ}
    (hsome : 0 < count) : Accounts (Routed holds hash count) where
  push_some := by
    intro exchange records bundle hrouted
    change Routed holds hash count (exchange.push (some bundle)).1 _
    by_cases hone : exchange.targets.length = 1
    · obtain ⟨target, htargets⟩ := List.length_eq_one_iff.mp hone
      rw [push_to_one htargets]
      exact hrouted.push_single htargets (h.push_some bundle)
    · rw [push_to_many hone]
      exact hrouted.distribute h (by rw [hrouted.length] at hone; omega) bundle
  push_none := by
    intro exchange records hrouted
    change Routed holds hash count (exchange.push none).1 _
    by_cases hone : exchange.targets.length = 1
    · obtain ⟨target, htargets⟩ := List.length_eq_one_iff.mp hone
      rw [push_to_one htargets, ← List.append_nil records]
      refine hrouted.push_single htargets fun hholds => ?_
      rw [List.append_nil]
      exact h.push_none hholds
    · rw [push_to_many hone]
      exact hrouted.finish h

/-! ### Flushing -/

/-- After a `none` nothing is buffered, and the last that each target has got is a `none`. -/
theorem Routed.told (hrouted : Routed holds hash count exchange records) (h : Accounts holds)
    {target : Outlet P D} (htarget : target ∈ (exchange.push none).1.targets) :
    target.buffer.data = [] ∧ ∃ pusher : P, target.pusher = (Push.push pusher (none : Option (Bundle T D))).1 := by
  by_cases hone : exchange.targets.length = 1
  · obtain ⟨only, htargets⟩ := List.length_eq_one_iff.mp hone
    rw [push_to_one htargets] at htarget
    rw [List.mem_singleton.mp htarget]
    have hcurrent := hrouted.single (hrouted.length.symm.trans hone)
    exact ⟨hrouted.idle hcurrent only (by simp [htargets]), only.pusher, rfl⟩
  · rw [push_to_many hone] at htarget
    obtain ⟨before, hbefore, rfl⟩ := List.mem_map.mp htarget
    obtain ⟨i, hi⟩ := List.mem_iff_getElem?.mp hbefore
    exact ⟨(hrouted.flush h hi).1, _, rfl⟩

theorem routed_new {pushers : List P} (hpushers : ∀ pusher ∈ pushers, holds pusher []) (hash : T → D → ℕ) :
    Routed holds hash pushers.length (new pushers hash) [] := by
  have hempty : ∀ target ∈ (new pushers hash).targets, target.buffer.data = [] ∧ holds target.pusher [] := by
    intro target htarget
    obtain ⟨pusher, hpusher, rfl⟩ := List.mem_map.mp htarget
    exact ⟨rfl, hpushers pusher hpusher⟩
  refine ⟨rfl, List.length_map _, fun _ target htarget => (hempty target htarget).1, fun _ => rfl,
    fun i target htarget => ?_⟩
  obtain ⟨hnothing, hholds⟩ := hempty target (List.mem_of_getElem? htarget)
  exact Outlet.given_of_empty hnothing hholds none

/-- An exchange to these targets. -/
def to_targets [Allocator (Logged P T D)] (pushers : List P) (hash : T → D → ℕ) : Exchange (Logged P T D) T D :=
  new (pushers.map Logged.new) hash

omit [Allocator P] in
/-- At the end of each flush, each target has received the records that hash to it, in the order in
    which they have been pushed and with their own times, then a `none`, and none of its records
    is left in its buffer.  The mask finds the same targets as the remainder. -/
theorem flush_delivers [Allocator (Logged P T D)] {pushers : List P} (hsome : pushers ≠ [])
    (hash : T → D → ℕ) (messages : List (Option (Bundle T D))) :
    (push_all (to_targets pushers hash) (messages ++ [none])).targets.length = pushers.length
    ∧ (∀ i target, (push_all (to_targets pushers hash) (messages ++ [none])).targets[i]? = some target →
      target.pusher.records = share hash pushers.length i ((messages.filterMap id).flatMap Bundle.records)
      ∧ target.pusher.log.getLast? = some none ∧ target.buffer.data = [])
    ∧ (pushers.length &&& (pushers.length - 1) = 0 →
      ∀ hashed : ℕ, hashed &&& (pushers.length - 1) = hashed % pushers.length) := by
  have hlength : 0 < pushers.length := List.length_pos_iff.mpr hsome
  have haccounts := Logged.accounts (P := P) (T := T) (D := D)
  have hstart : Routed (fun (logged : Logged P T D) records => logged.records = records) hash
      (pushers.map (Logged.new : P → Logged P T D)).length (to_targets pushers hash) [] := by
    refine routed_new (fun logged hlogged => ?_) hash
    obtain ⟨pusher, -, rfl⟩ := List.mem_map.mp hlogged
    rfl
  rw [List.length_map] at hstart
  have hpushed := (accounts haccounts hash hlength).push_all hstart messages
  have hlast : push_all (to_targets pushers hash) (messages ++ [none])
      = (push (push_all (to_targets pushers hash) messages) none).1 := by
    rw [push_all, List.foldl_append]
    rfl
  rw [hlast]
  have hflushed := (accounts haccounts hash hlength).push_none hpushed
  refine ⟨hflushed.length, fun i target htarget => ?_, fun hmask hashed => mask_eq_mod hlength hmask hashed⟩
  obtain ⟨hempty, pusher, hpusher⟩ := hpushed.told haccounts (List.mem_of_getElem? htarget)
  refine ⟨(hflushed.shares i target htarget).holds_of_empty hempty, ?_, hempty⟩
  rw [hpusher, Logged.log_push, List.getLast?_concat]
  rfl

/-- Three targets, one of which hands buffers back. -/
def example_targets : List (Recipient ℕ ℕ) := [.keeps, .hands_back, .keeps]

/-- Messages at two times. -/
def example_messages : List (Option (Bundle ℕ ℕ)) :=
  [some ⟨7, ⟨[1, 4, 2], 3⟩, true⟩, some ⟨8, ⟨[4], 1⟩, true⟩]

/-- The second target receives the records that leave one when divided by three. -/
theorem flush_delivers_example :
    (push_all (to_targets example_targets fun (_ datum : ℕ) => datum) (example_messages ++ [none])).targets.length = 3
    ∧ ∀ target, (push_all (to_targets example_targets fun (_ datum : ℕ) => datum)
        (example_messages ++ [none])).targets[1]? = some target →
      target.pusher.records = [(7, 1), (7, 4), (8, 4)] := by
  obtain ⟨hlength, htargets, -⟩ := flush_delivers (List.cons_ne_nil Recipient.keeps [.hands_back, .keeps])
    (fun (_ datum : ℕ) => datum) example_messages
  exact ⟨hlength, fun target htarget => (htargets 1 target htarget).1⟩

end Exchange

end Channels

end Timely
