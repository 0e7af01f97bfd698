/-
  Timely/Network/Handshakes.lean
  ==============================
  **All processes get their sockets** (`communication/src/networking.rs`,
  `create_sockets`).

  In whatever order the threads of all processes run, two processes that have their
  sockets hold both ends of one stream.  Each act but another try leaves one act less
  to do, and as long as one is left, some thread can take one: so all processes
  return, after a number of acts that only depends on how many processes there are.
-/
import Timely.Network.Sockets
import Mathlib.Algebra.BigOperators.Group.Finset.Basic
import Mathlib.Algebra.Order.BigOperators.Group.Finset

set_option linter.unusedSectionVars false

namespace Timely.Network

open Library

namespace Sockets

variable {codec : WordCodec} {processes my_index : ℕ} {sockets after : Sockets}

/-! ### What processes get -/

theorem create_sockets_cases {mine : List (Option ℕ)} (h : sockets.create_sockets my_index = some mine) :
    ∃ results to_extend, sockets.starting my_index = .connecting results ∧ results.length = my_index ∧
      sockets.awaiting my_index = .accepting to_extend 0 ∧ mine = results.map some ++ [none] ++ to_extend := by
  unfold create_sockets at h
  split at h
  case h_2 => cases h
  case h_1 results to_extend hstarting hawaiting =>
    split at h
    case isFalse => cases h
    case isTrue hlength =>
      cases h
      exact ⟨results, to_extend, hstarting, hlength, hawaiting, rfl⟩

/-- A process that has returned has a socket to each process before it, which it has started, and to each
    process behind it, whose handshake it has read. -/
theorem Inv.create_sockets (h : Inv codec processes sockets) (hindex : my_index < processes)
    {mine : List (Option ℕ)} (hmine : sockets.create_sockets my_index = some mine) :
    mine.length = processes ∧ mine[my_index]? = some none ∧
      (∀ server, server < my_index → ∃ (stream : ℕ) (bytes : List UInt8),
        mine[server]? = some (some stream) ∧
        sockets.streams[stream]? = some ⟨my_index, server, bytes⟩) ∧
      ∀ client, my_index < client → client < processes → ∃ stream : ℕ,
        mine[client]? = some (some stream) ∧ sockets.streams[stream]? = some ⟨client, my_index, []⟩ := by
  obtain ⟨results, to_extend, hstarting, hlength, hawaiting, rfl⟩ := create_sockets_cases hmine
  have hserving := h.serving my_index
  rw [hawaiting] at hserving
  have hopened : (sockets.starting my_index).opened = results := congrArg StartTask.opened hstarting
  have hresults : (sockets.awaiting my_index).results = to_extend := congrArg AwaitTask.results hawaiting
  have hmap : (results.map some ++ [none]).length = my_index + 1 := by simp [hlength]
  cases hserving with
  | accepting hextend hcount =>
    refine ⟨?_, ?_, fun server hserver => ?_, fun client hclient hprocess => ?_⟩
    · rw [List.length_append, hmap, hextend]
      omega
    · rw [List.getElem?_append_left (by omega), List.getElem?_append_right (by simp [hlength])]
      simp [hlength]
    · have hlt : server < results.length := by omega
      obtain ⟨bytes, hbytes⟩ := h.opened my_index server (results.get ⟨server, hlt⟩)
        (hopened ▸ List.getElem?_eq_getElem hlt)
      refine ⟨_, bytes, ?_, hbytes⟩
      rw [List.getElem?_append_left (by omega),
        List.getElem?_append_left (by rw [List.length_map]; exact hlt), List.getElem?_map,
        List.getElem?_eq_getElem hlt]
      rfl
    · have hslot : client - my_index - 1 < to_extend.length := by omega
      have hentry := List.getElem?_eq_getElem hslot
      -- no result is missing
      cases hvalue : to_extend.get ⟨client - my_index - 1, hslot⟩ with
      | none =>
        have hmem : none ∈ to_extend := hvalue ▸ List.get_mem _ _
        exact absurd (List.count_pos_iff.mpr hmem) (by omega)
      | some stream =>
        change to_extend[client - my_index - 1] = some stream at hvalue
        rw [hvalue] at hentry
        obtain ⟨hstream, -⟩ := h.stored my_index _ stream (hresults ▸ hentry)
        have hsame : my_index + 1 + (client - my_index - 1) = client := by omega
        rw [hsame] at hstream
        refine ⟨stream, ?_, hstream⟩
        rw [List.getElem?_append_right (by omega), hmap, Nat.sub_add_eq]
        exact hentry

/-- In every run no process fails.  One that has returned has no socket to itself, and two that have
    returned have both ends of one stream, which starts behind the handshake. -/
theorem sockets_join (hcodec : codec.Lawful) (hprocesses : processes ≤ 2 ^ 64) {events : List (ℕ × Act)}
    (hrun : Run (Step codec processes) start events sockets) :
    (∀ process, sockets.awaiting process ≠ .returned_error ∧ sockets.awaiting process ≠ .panicked) ∧
    ∀ process mine, process < processes → sockets.create_sockets process = some mine →
      mine.length = processes ∧ mine[process]? = some none ∧
      ∀ other yours, other < processes → other ≠ process → sockets.create_sockets other = some yours →
        ∃ stream : ℕ, mine[other]? = some (some stream) ∧ yours[process]? = some (some stream) ∧
          sockets.streams[stream]? = some ⟨max process other, min process other, []⟩ := by
  have hinv := Inv.of_run hcodec hprocesses hrun
  refine ⟨fun process => ?_, fun process mine hprocess hmine => ?_⟩
  · have hserving := hinv.serving process
    constructor
    · intro herror
      rw [herror] at hserving
      cases hserving
    · intro hpanicked
      rw [hpanicked] at hserving
      cases hserving
  · obtain ⟨hlength, hself, hbefore, hbehind⟩ := hinv.create_sockets hprocess hmine
    refine ⟨hlength, hself, fun other yours hother hne hyours => ?_⟩
    obtain ⟨-, -, hbefore', hbehind'⟩ := hinv.create_sockets hother hyours
    rcases Nat.lt_or_gt_of_ne hne with hlt | hlt
    · obtain ⟨stream, bytes, hmine, hstream⟩ := hbefore other hlt
      obtain ⟨stream', hyours, hstream'⟩ := hbehind' process hlt hprocess
      obtain rfl := hinv.eq_of_ends hstream hstream' rfl rfl
      rw [max_eq_left hlt.le, min_eq_right hlt.le]
      exact ⟨_, hmine, hyours, hstream'⟩
    · obtain ⟨stream, hmine, hstream⟩ := hbehind other hlt hother
      obtain ⟨stream', bytes, hyours, hstream'⟩ := hbefore' process hlt
      obtain rfl := hinv.eq_of_ends hstream hstream' rfl rfl
      rw [max_eq_right hlt.le, min_eq_left hlt.le]
      exact ⟨_, hmine, hyours, hstream⟩

end Sockets

/-! ### What is left to do -/

/-- The acts that a thread that starts connections has still to take: one for each connection, and one for
    each byte of its handshake. -/
def StartTask.work (my_index : ℕ) : StartTask → ℕ
  | .connecting results => 17 * (my_index - results.length)
  | .sending results _ unsent => unsent.length + 17 * (my_index - results.length - 1)

/-- The acts that a thread that awaits connections has still to take. -/
def AwaitTask.work (size : ℕ) : AwaitTask → ℕ
  | .binding => 2 * size + 1
  | .accepting _ left => 2 * left
  | .reading _ left _ => 2 * left + 1
  | _ => 0

namespace Sockets

variable {codec : WordCodec} {processes my_index : ℕ} {sockets after : Sockets}

/-- The acts that the threads of a process have still to take. -/
def work_of (processes : ℕ) (sockets : Sockets) (process : ℕ) : ℕ :=
  (sockets.starting process).work process + (sockets.awaiting process).work (processes - process - 1)

def work (processes : ℕ) (sockets : Sockets) : ℕ :=
  ∑ process ∈ Finset.range processes, sockets.work_of processes process

/-- The acts of all processes. -/
def total_work (processes : ℕ) : ℕ :=
  ∑ process ∈ Finset.range processes, (17 * process + (2 * (processes - process - 1) + 1))

/-- Where one process has less to do, all have less to do. -/
theorem work_succ (hindex : my_index < processes)
    (hself : after.work_of processes my_index + 1 = sockets.work_of processes my_index)
    (hothers : ∀ other, other ≠ my_index → after.work_of processes other = sockets.work_of processes other) :
    after.work processes + 1 = sockets.work processes := by
  have hmem := Finset.mem_range.mpr hindex
  unfold work
  rw [← Finset.add_sum_erase _ _ hmem, ← Finset.add_sum_erase _ _ hmem, ← hself]
  have hrest : ∑ process ∈ (Finset.range processes).erase my_index, after.work_of processes process =
      ∑ process ∈ (Finset.range processes).erase my_index, sockets.work_of processes process :=
    Finset.sum_congr rfl fun process hprocess => hothers process (Finset.ne_of_mem_erase hprocess)
  rw [hrest]
  omega

/-- Each act but another try leaves one act less to do. -/
theorem Inv.work_step (hcodec : codec.Lawful) (hprocesses : processes ≤ 2 ^ 64)
    (h : Inv codec processes sockets) {event : ℕ × Act} (hstep : Step codec processes sockets event after) :
    after.work processes + (if event.2 = .retry then 0 else 1) = sockets.work processes := by
  obtain ⟨my_index, act⟩ := event
  unfold Step perform at hstep
  split at hstep
  case isFalse => cases hstep
  case isTrue hindex =>
    dsimp only at hindex hstep ⊢
    cases act with
    | connect =>
      obtain ⟨server, hconnected⟩ := connected_of_connect hstep
      refine work_succ hindex ?_ fun other hother => ?_
      · have hserver := hconnected.server_eq
        have hlt := hconnected.server_lt
        unfold work_of
        rw [hconnected.started, hconnected.awaiting, hconnected.ready]
        generalize (sockets.starting my_index).opened = results at hserver
        change (handshake codec my_index).length + 17 * (my_index - results.length - 1) + _ + 1 =
          17 * (my_index - results.length) + _
        rw [length_handshake hcodec]
        omega
      · unfold work_of
        rw [hconnected.others other hother, hconnected.awaiting]
    | retry =>
      cases hstep
      rfl
    | write =>
      obtain ⟨stream, byte, hwritten⟩ := written_of_write hstep
      refine work_succ hindex ?_ fun other hother => ?_
      · obtain ⟨results, unsent, hbefore, hafter⟩ := hwritten.started
        unfold work_of
        rw [hwritten.awaiting, hbefore, hafter]
        split
        case isTrue hempty =>
          rw [List.isEmpty_iff.mp hempty]
          change 17 * (my_index - (results ++ [stream]).length) + _ + 1 =
            1 + 17 * (my_index - results.length - 1) + _
          rw [List.length_append, List.length_singleton, Nat.sub_add_eq]
          omega
        case isFalse =>
          change unsent.length + 17 * (my_index - results.length - 1) + _ + 1 =
            unsent.length + 1 + 17 * (my_index - results.length - 1) + _
          omega
      · unfold work_of
        rw [hwritten.others other hother, hwritten.awaiting]
    | bind =>
      obtain ⟨hbinding, -, hawaited⟩ := awaited_of_bind hstep
      refine work_succ hindex ?_ fun other hother => ?_
      · unfold work_of
        rw [hawaited.starting, hawaited.task_eq, hbinding]
        change _ + 2 * (processes - my_index - 1) + 1 = _ + (2 * (processes - my_index - 1) + 1)
        rw [add_assoc]
      · unfold work_of
        rw [hawaited.starting, hawaited.others other hother]
    | accept =>
      obtain ⟨results, left, stream, haccepting, -, hawaited⟩ := awaited_of_accept hstep
      refine work_succ hindex ?_ fun other hother => ?_
      · unfold work_of
        rw [hawaited.starting, hawaited.task_eq, haccepting]
        change _ + (2 * left + 1) + 1 = _ + 2 * (left + 1)
        omega
      · unfold work_of
        rw [hawaited.starting, hawaited.others other hother]
    | read =>
      obtain ⟨client, stream, left, results, hstored⟩ := h.stored_of_read hcodec hprocesses hstep
      have hawaited := hstored.awaited
      refine work_succ hindex ?_ fun other hother => ?_
      · unfold work_of
        rw [hawaited.starting, hawaited.task_eq, hstored.reading]
        change _ + 2 * left + 1 = _ + (2 * left + 1)
        omega
      · unfold work_of
        rw [hawaited.starting, hawaited.others other hother]

/-- In a run, what has been done and what is left to do add up. -/
theorem work_of_run (hcodec : codec.Lawful) (hprocesses : processes ≤ 2 ^ 64) {events : List (ℕ × Act)}
    (hrun : Run (Step codec processes) start events sockets) :
    (events.countP fun event => decide (event.2 ≠ .retry)) + sockets.work processes = total_work processes := by
  have hboth : Inv codec processes sockets ∧
      (events.countP fun event => decide (event.2 ≠ .retry)) + sockets.work processes =
        total_work processes := by
    refine hrun.invariant (P := fun events last => Inv codec processes last ∧
      (events.countP fun event => decide (event.2 ≠ .retry)) + last.work processes = total_work processes)
      ⟨inv_start, Nat.zero_add _⟩ ?_
    rintro events before event after ⟨hinv, hsum⟩ hstep
    refine ⟨hinv.step hcodec hprocesses hstep, ?_⟩
    have hwork := hinv.work_step hcodec hprocesses hstep
    rw [List.countP_append, List.countP_singleton, ← hsum, ← hwork]
    by_cases hretry : event.2 = .retry
    · simp [hretry]
    · simp only [hretry, ne_eq, not_false_eq_true, decide_true, if_true, if_false]
      omega
  exact hboth.2

/-! ### No thread waits for ever -/

/-- A process that has nothing left to do has returned. -/
theorem Inv.returned_iff (h : Inv codec processes sockets) :
    (sockets.create_sockets my_index).isSome = true ↔ sockets.work_of processes my_index = 0 := by
  have hserving := h.serving my_index
  constructor
  · intro hreturned
    obtain ⟨mine, hmine⟩ := Option.isSome_iff_exists.mp hreturned
    obtain ⟨results, to_extend, hstarting, hlength, hawaiting, -⟩ := create_sockets_cases hmine
    unfold work_of
    rw [hstarting, hawaiting]
    change 17 * (my_index - results.length) + 2 * 0 = 0
    rw [hlength]
    omega
  · intro hwork
    unfold work_of at hwork
    obtain ⟨hstart, hawait⟩ := Nat.add_eq_zero_iff.mp hwork
    cases hstarting : sockets.starting my_index with
    | sending results stream unsent =>
      rw [hstarting] at hstart
      have hnil : unsent = [] := List.eq_nil_of_length_eq_zero (Nat.add_eq_zero_iff.mp hstart).1
      exact absurd (hnil ▸ hstarting) (h.unsent my_index results stream)
    | connecting results =>
      rw [hstarting] at hstart
      have hdone : my_index - results.length = 0 := by
        change 17 * (my_index - results.length) = 0 at hstart
        omega
      -- a process has no more streams than there are processes before it
      have hle : results.length ≤ my_index := by
        by_contra hgt
        have hlt : my_index < results.length := not_le.mp hgt
        have hopened : (sockets.starting my_index).opened[my_index]? = some (results.get ⟨my_index, hlt⟩) := by
          rw [hstarting]
          exact List.getElem?_eq_getElem hlt
        obtain ⟨bytes, hbytes⟩ := h.opened my_index my_index _ hopened
        exact absurd (h.owned _ _ hbytes).2.1 (lt_irrefl _)
      generalize hawaiting : sockets.awaiting my_index = task at hserving hawait
      cases hserving with
      | binding => exact absurd hawait (Nat.succ_ne_zero _)
      | @accepting to_extend left hlength hcount =>
        have hleft : left = 0 := by
          change 2 * left = 0 at hawait
          omega
        have hmine : sockets.create_sockets my_index = some (results.map some ++ [none] ++ to_extend) := by
          unfold Sockets.create_sockets
          rw [hstarting, hawaiting, hleft]
          exact if_pos (by omega)
        rw [hmine]
        rfl
      | reading _ _ => exact absurd hawait (Nat.succ_ne_zero _)

/-- Some thread can take a step that is no further try. -/
def Busy (codec : WordCodec) (processes : ℕ) (sockets : Sockets) : Prop :=
  ∃ event after, event.2 ≠ Act.retry ∧ Step codec processes sockets event after

theorem busy_of_perform (my_index : ℕ) {act : Act} (hact : act ≠ .retry)
    (h : (sockets.perform codec processes (my_index, act)).isSome = true) : Busy codec processes sockets := by
  obtain ⟨after, hafter⟩ := Option.isSome_iff_exists.mp h
  exact ⟨(my_index, act), after, hact, hafter⟩

/-- A process is not kept from reading when all handshakes have been written. -/
theorem Inv.busy_of_reading (hcodec : codec.Lawful) (h : Inv codec processes sockets)
    (hwritten : ∀ client results stream unsent, client < processes →
      sockets.starting client ≠ .sending results stream unsent)
    (hindex : my_index < processes) {results : List (Option ℕ)} {left stream : ℕ}
    (hreading : sockets.awaiting my_index = .reading results left stream) :
    Busy codec processes sockets := by
  have hmem : stream ∈ sockets.waiting my_index := by
    unfold waiting
    rw [hreading]
    exact List.mem_append_left _ (List.mem_singleton_self _)
  obtain ⟨socket, hfresh⟩ := h.fresh my_index stream hmem
  obtain ⟨hclient, -, -⟩ := h.owned stream socket hfresh.stream_eq
  have hunsent : (sockets.starting socket.client).unsent stream = [] := by
    cases hstarting : sockets.starting socket.client with
    | connecting _ => rfl
    | sending results stream unsent => exact absurd hstarting (hwritten _ _ _ _ hclient)
  have hbytes := hfresh.bytes
  rw [hunsent, List.append_nil] at hbytes
  have hread : Act.read ≠ Act.retry := fun heq => nomatch heq
  refine busy_of_perform my_index hread ?_
  unfold perform
  rw [if_pos hindex]
  unfold Sockets.read
  rw [hreading]
  dsimp only
  rw [hfresh.stream_eq, Option.bind_some, hbytes, if_pos (length_handshake hcodec).ge]
  rfl

/-- A process is not kept from connecting when all listeners have been bound. -/
theorem Inv.busy_of_connecting (h : Inv codec processes sockets)
    (hbound : ∀ server, server < processes → sockets.awaiting server ≠ .binding)
    (hindex : my_index < processes) {results : List ℕ}
    (hstarting : sockets.starting my_index = .connecting results) (hshort : results.length < my_index) :
    Busy codec processes sockets := by
  have hserver : results.length < processes := hshort.trans hindex
  have hnone : (sockets.starting my_index).opened[results.length]? = none := by
    rw [hstarting]
    exact List.getElem?_eq_none le_rfl
  have hmissing := List.mem_of_getElem? (h.lacks hindex hshort (hbound _ hserver) hnone)
  have hlistens : listening (sockets.awaiting results.length) = true := by
    have hserving := h.serving results.length
    have hunbound := hbound _ hserver
    generalize sockets.awaiting results.length = task at hserving hunbound hmissing ⊢
    cases hserving with
    | binding => exact absurd rfl hunbound
    | @accepting to_extend left _ hcount =>
      have hpos : 0 < to_extend.count none := List.count_pos_iff.mpr hmissing
      rw [hcount] at hpos
      exact decide_eq_true hpos
    | reading _ _ => rfl
  have hconnect : Act.connect ≠ Act.retry := fun heq => nomatch heq
  refine busy_of_perform my_index hconnect ?_
  unfold perform
  rw [if_pos hindex]
  unfold Sockets.connect
  rw [hstarting]
  dsimp only
  rw [if_pos ⟨hshort, hlistens⟩]
  rfl

/-- A process is not kept from accepting when all connections have been started. -/
theorem Inv.busy_of_accepting (h : Inv codec processes sockets)
    (hstarted : ∀ client, client < processes → client ≤ (sockets.starting client).opened.length)
    (hindex : my_index < processes) {results : List (Option ℕ)} {left : ℕ}
    (haccepting : sockets.awaiting my_index = .accepting results (left + 1)) :
    Busy codec processes sockets := by
  have hserving := h.serving my_index
  rw [haccepting] at hserving
  have hresults : (sockets.awaiting my_index).results = results := congrArg AwaitTask.results haccepting
  have hwaits : sockets.waiting my_index = sockets.backlog my_index := by
    unfold waiting
    rw [haccepting]
    rfl
  obtain ⟨stream, rest, hbacklog⟩ : ∃ stream rest, sockets.backlog my_index = stream :: rest := by
    cases hserving with
    | accepting hlength hcount =>
      -- a connection that has not been stored waits
      have hmissing : none ∈ results := List.count_pos_iff.mp (hcount ▸ Nat.succ_pos left)
      obtain ⟨slot, hslot⟩ := List.getElem?_of_mem hmissing
      have hlt := (List.getElem?_eq_some_iff.mp hslot).1
      have hclient : my_index + 1 + slot < processes := by omega
      have hopened := hstarted _ hclient
      have hserver : my_index < (sockets.starting (my_index + 1 + slot)).opened.length := by omega
      obtain ⟨bytes, hbytes⟩ := h.opened _ my_index _ (List.getElem?_eq_getElem hserver)
      rcases h.placed _ _ hbytes with hmem | hstored
      · rw [hwaits] at hmem
        exact List.exists_cons_of_ne_nil (List.ne_nil_of_mem hmem)
      · have hsame : my_index + 1 + slot - my_index - 1 = slot := by omega
        dsimp only at hstored
        rw [hresults, hsame, hslot] at hstored
        cases hstored
  have haccept : Act.accept ≠ Act.retry := fun heq => nomatch heq
  refine busy_of_perform my_index haccept ?_
  unfold perform
  rw [if_pos hindex]
  unfold Sockets.accept
  rw [haccepting, hbacklog]
  rfl

/-- As long as a process has not returned, some thread can take a step. -/
theorem Inv.busy (hcodec : codec.Lawful) (h : Inv codec processes sockets)
    (hindex : my_index < processes) (hreturned : (sockets.create_sockets my_index).isSome = false) :
    Busy codec processes sockets := by
  by_cases hbound : ∀ server, server < processes → sockets.awaiting server ≠ .binding
  case neg =>
    push Not at hbound
    obtain ⟨server, hserver, hbinding⟩ := hbound
    have hbind : Act.bind ≠ Act.retry := fun heq => nomatch heq
    refine busy_of_perform server hbind ?_
    unfold perform
    rw [if_pos hserver]
    unfold Sockets.bind
    rw [hbinding]
    rfl
  by_cases hwritten : ∀ client results stream unsent, client < processes →
      sockets.starting client ≠ .sending results stream unsent
  case neg =>
    push Not at hwritten
    obtain ⟨client, results, stream, unsent, hclient, hsending⟩ := hwritten
    cases unsent with
    | nil => exact absurd hsending (h.unsent client results stream)
    | cons byte unsent =>
      have hwrite : Act.write ≠ Act.retry := fun heq => nomatch heq
      refine busy_of_perform client hwrite ?_
      unfold perform
      rw [if_pos hclient]
      unfold Sockets.write
      rw [hsending]
      rfl
  have hconnecting : ∀ client, client < processes → ∃ results, sockets.starting client = .connecting results := by
    intro client hclient
    cases hstarting : sockets.starting client with
    | connecting results => exact ⟨results, rfl⟩
    | sending results stream unsent => exact absurd hstarting (hwritten _ _ _ _ hclient)
  by_cases hstarted : ∀ client, client < processes → client ≤ (sockets.starting client).opened.length
  case neg =>
    push Not at hstarted
    obtain ⟨client, hclient, hshort⟩ := hstarted
    obtain ⟨results, hstarting⟩ := hconnecting client hclient
    rw [hstarting] at hshort
    exact h.busy_of_connecting hbound hclient hstarting hshort
  -- all that is left is to accept and to read
  obtain ⟨results, hstarting⟩ := hconnecting my_index hindex
  have hlength := hstarted my_index hindex
  rw [hstarting] at hlength
  change my_index ≤ results.length at hlength
  have hstart : (sockets.starting my_index).work my_index = 0 := by
    rw [hstarting]
    change 17 * (my_index - results.length) = 0
    omega
  have hserving := h.serving my_index
  cases hawaiting : sockets.awaiting my_index with
  | binding => exact absurd hawaiting (hbound my_index hindex)
  | reading to_extend left stream => exact h.busy_of_reading hcodec hwritten hindex hawaiting
  | returned_error =>
    rw [hawaiting] at hserving
    cases hserving
  | panicked =>
    rw [hawaiting] at hserving
    cases hserving
  | accepting to_extend left =>
    cases left with
    | succ left => exact h.busy_of_accepting hstarted hindex hawaiting
    | zero =>
      have hdone : sockets.work_of processes my_index = 0 := by
        unfold work_of
        rw [hstart, hawaiting]
        rfl
      rw [h.returned_iff.mpr hdone] at hreturned
      cases hreturned

/-- In every run the processes take at most so many acts, further tries apart.  They have taken all of
    them exactly when all have returned with their sockets; and before, some thread can take the next
    one. -/
theorem sockets_returned (hcodec : codec.Lawful) (hprocesses : processes ≤ 2 ^ 64) {events : List (ℕ × Act)}
    (hrun : Run (Step codec processes) start events sockets) :
    (events.countP fun event => decide (event.2 ≠ .retry)) ≤ total_work processes ∧
    ((∀ process, process < processes → (sockets.create_sockets process).isSome = true) ↔
      (events.countP fun event => decide (event.2 ≠ .retry)) = total_work processes) ∧
    ((∀ process, process < processes → (sockets.create_sockets process).isSome = true) ∨
      Busy codec processes sockets) := by
  have hinv := Inv.of_run hcodec hprocesses hrun
  have hsum := work_of_run hcodec hprocesses hrun
  refine ⟨hsum ▸ Nat.le_add_right _ _, ?_, ?_⟩
  · have hreturned : (∀ process, process < processes → (sockets.create_sockets process).isSome = true) ↔
        sockets.work processes = 0 := by
      rw [work, Finset.sum_eq_zero_iff]
      exact forall_congr' fun process => imp_congr Finset.mem_range.symm hinv.returned_iff
    rw [hreturned, ← hsum]
    omega
  · by_cases hall : ∀ process, process < processes → (sockets.create_sockets process).isSome = true
    · exact Or.inl hall
    · push Not at hall
      obtain ⟨process, hprocess, hwaits⟩ := hall
      exact Or.inr (hinv.busy hcodec hprocess (Bool.eq_false_of_not_eq_true hwaits))

/-! ### An example -/

/-- Eight bytes, the least significant one first. -/
def little_endian : WordCodec where
  encode word := (List.range 8).map fun index => UInt8.ofNat (word.toNat / 256 ^ index)
  decode
    | b0 :: b1 :: b2 :: b3 :: b4 :: b5 :: b6 :: b7 :: rest =>
      some (UInt64.ofNat (b0.toNat + 256 * (b1.toNat + 256 * (b2.toNat + 256 * (b3.toNat + 256 * (b4.toNat +
        256 * (b5.toNat + 256 * (b6.toNat + 256 * b7.toNat))))))), rest)
    | _ => none

theorem little_endian_lawful : little_endian.Lawful where
  length_encode word := by
    unfold little_endian
    dsimp only
    rw [List.length_map, List.length_range]
  decode_encode word rest := by
    have hlt : word.toNat < 18446744073709551616 := word.toNat_lt
    have hdigits : ∀ number : ℕ, number < 18446744073709551616 →
        number / 256 ^ 0 % 256 + 256 * (number / 256 ^ 1 % 256 + 256 * (number / 256 ^ 2 % 256 + 256 *
          (number / 256 ^ 3 % 256 + 256 * (number / 256 ^ 4 % 256 + 256 * (number / 256 ^ 5 % 256 + 256 *
            (number / 256 ^ 6 % 256 + 256 * (number / 256 ^ 7 % 256))))))) = number := by
      intro number hnumber
      norm_num
      omega
    have hword : word.toNat = (UInt8.ofNat (word.toNat / 256 ^ 0)).toNat + 256 *
        ((UInt8.ofNat (word.toNat / 256 ^ 1)).toNat + 256 * ((UInt8.ofNat (word.toNat / 256 ^ 2)).toNat + 256 *
        ((UInt8.ofNat (word.toNat / 256 ^ 3)).toNat + 256 * ((UInt8.ofNat (word.toNat / 256 ^ 4)).toNat + 256 *
        ((UInt8.ofNat (word.toNat / 256 ^ 5)).toNat + 256 * ((UInt8.ofNat (word.toNat / 256 ^ 6)).toNat + 256 *
        (UInt8.ofNat (word.toNat / 256 ^ 7)).toNat)))))) := by
      simp only [UInt8.toNat_ofNat']
      exact (hdigits _ hlt).symm
    have hsame := congrArg UInt64.ofNat hword
    rw [UInt64.ofNat_toNat] at hsame
    exact congrArg (fun found => some (found, rest)) hsame.symm

/-- Process one tries once before process zero is bound. -/
def handshake_events : List (ℕ × Act) :=
  [(1, .bind), (1, .retry), (0, .bind), (1, .connect)] ++ List.replicate 16 (1, .write) ++ [(0, .accept), (0, .read)]

theorem handshake_performs :
    (handshake_events.foldlM (perform little_endian 2) start).isSome := by decide

def handshake_last : Sockets :=
  (handshake_events.foldlM (perform little_endian 2) start).get handshake_performs

theorem handshake_run : Run (Step little_endian 2) start handshake_events handshake_last :=
  Run.of_foldlM (Option.some_get handshake_performs).symm

theorem sockets_join_example : handshake_last.create_sockets 0 = some [none, some 0] ∧
    ∃ stream : ℕ, ([none, some 0] : List (Option ℕ))[1]? = some (some stream) ∧
      ([some 0, none] : List (Option ℕ))[0]? = some (some stream) ∧
        handshake_last.streams[stream]? = some ⟨1, 0, []⟩ := by
  have hfirst : handshake_last.create_sockets 0 = some [none, some 0] := by decide
  have hsecond : handshake_last.create_sockets 1 = some [some 0, none] := by decide
  exact ⟨hfirst, ((sockets_join little_endian_lawful (by decide) handshake_run).2 0 _ (by decide) hfirst).2.2 1 _
    (by decide) (by decide) hsecond⟩

theorem sockets_returned_example :
    (handshake_events.countP fun event => decide (event.2 ≠ .retry)) = total_work 2 ∧
      ∀ process, process < 2 → (handshake_last.create_sockets process).isSome = true := by
  have hcount : (handshake_events.countP fun event => decide (event.2 ≠ .retry)) = total_work 2 := by decide
  exact ⟨hcount, (sockets_returned little_endian_lawful (by decide) handshake_run).2.1.mpr hcount⟩

end Sockets

end Timely.Network
