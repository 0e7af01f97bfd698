/-
  Timely/Network/Channels.lean
  ============================
  **Messages for channels that are not there** (`allocator.rs` and
  `allocator_process.rs` of `allocator/zero_copy`, and `allocator/canary.rs`).

  All workers allocate the same channels, in the same increasing order, but not at
  the same time.  So messages may come for a channel before it is allocated, which
  is above all that were, and after its puller was dropped, when its queue is
  removed.  A worker's calls and the arrivals of messages interleave, and messages
  may arrive also while a call of `receive` drains one queue after the other.
-/
import Timely.Network.MergeQueue
import Timely.Network.TcpAllocator
import Timely.Library.Run

set_option linter.unusedSectionVars false

namespace Timely.Network

namespace Channels

/-- The two allocators: for several processes, with an allocator inside for the workers of its
    own process, and for the threads of one process. -/
inductive Kind where
  | tcp
  | process
  deriving DecidableEq

/-- Where a puller has a message from. -/
inductive Origin where
  | inner
  | bytes
  deriving DecidableEq

/-- A worker's allocator, with what comes to it. -/
structure Inbox where
  allocator : TcpAllocator
  /-- The queues of bytes from each process, or thread. -/
  recvs : List (List (List UInt8))
  /-- What the inner pullers of the channels have. -/
  inner : UInt64 → List (List UInt8)
  /-- The queue to be drained next, in a call of `receive`. -/
  draining : Option ℕ
  /-- The channels that the worker will allocate. -/
  todo : List UInt64

namespace Inbox

variable (inbox : Inbox)

/-- With `queues` many other processes, or threads. -/
def new (queues : ℕ) (ids : List UInt64) : Inbox :=
  ⟨TcpAllocator.new, List.replicate queues [], fun _ => [], none, ids⟩

/-- `PullerInner::pull` takes what its inner puller has first; `Puller::pull` has none. -/
def pull (kind : Kind) (channel : UInt64) : Option (Origin × List UInt8 × Inbox) :=
  match kind, inbox.inner channel with
  | .tcp, message :: rest =>
    if inbox.allocator.pullers channel then
      some (.inner, message, { inbox with inner := Function.update inbox.inner channel rest })
    else none
  | _, _ =>
    (inbox.allocator.pull channel).map fun (message, allocator) =>
      (.bytes, message, { inbox with allocator })

/-- The first part of `receive`: checks for channels whose puller has been dropped. -/
def start_receive : Option Inbox :=
  inbox.allocator.drop_channels.map fun allocator =>
    { inbox with allocator, draining := some 0 }

/-- One turn of the loop of `receive` that drains the queues. -/
def drain (index : ℕ) (queue : List (List UInt8)) : Inbox :=
  let (staged, queue) := MergeQueue.drain_into queue inbox.allocator.staged
  { inbox with
    allocator := { inbox.allocator with staged }
    recvs := inbox.recvs.set index queue
    draining := some (index + 1) }

/-- The last part of `receive`: splits what was drained, each slice in at most `fuel` rounds. -/
def finish_receive (codec : Codec) (fuel : ℕ) : Option Inbox :=
  (inbox.allocator.staged.foldlM (TcpAllocator.split codec fuel)
    { inbox.allocator with staged := [] }).map fun allocator =>
      { inbox with allocator, draining := none }

/-- A pull takes a message of the inner puller, or one of the allocator's own. -/
theorem pull_cases {inbox inbox' : Inbox} {kind : Kind} {channel : UInt64} {origin : Origin}
    {message : List UInt8} (h : inbox.pull kind channel = some (origin, message, inbox')) :
    (origin = .inner ∧ ∃ rest,
        inbox' = { inbox with inner := Function.update inbox.inner channel rest }) ∨
      origin = .bytes ∧ ∃ allocator, inbox.allocator.pull channel = some (message, allocator) ∧
        inbox' = { inbox with allocator } := by
  have hbytes : (inbox.allocator.pull channel).map
      (fun (message, allocator) => (Origin.bytes, message, { inbox with allocator }))
        = some (origin, message, inbox') →
      origin = .bytes ∧ ∃ allocator, inbox.allocator.pull channel = some (message, allocator) ∧
        inbox' = { inbox with allocator } := by
    intro hmap
    obtain ⟨⟨message', allocator⟩, hpull, hresult⟩ := Option.map_eq_some_iff.mp hmap
    cases hresult
    exact ⟨rfl, allocator, hpull, rfl⟩
  unfold pull at h
  split at h
  · obtain ⟨-, hresult⟩ := Option.ite_none_right_eq_some.mp h
    cases hresult
    exact Or.inl ⟨rfl, _, rfl⟩
  · exact Or.inr (hbytes h)

/-- A puller without an inner one, or whose inner one has nothing, takes from its queue. -/
theorem pull_bytes {inbox : Inbox} {kind : Kind} {channel : UInt64}
    (h : kind = .process ∨ inbox.inner channel = []) :
    inbox.pull kind channel = (inbox.allocator.pull channel).map fun (message, allocator) =>
      (.bytes, message, { inbox with allocator }) := by
  unfold pull
  rcases h with rfl | hinner
  · rfl
  · rw [hinner]
    cases kind <;> rfl

end Inbox

inductive Label where
  | allocate (identifier : UInt64)
  | arrive (index : ℕ) (frames : List Frame)
  | arrive_inner (channel : UInt64) (message : List UInt8)
  | start_receive
  | drain (index : ℕ)
  | finish_receive
  | pull (channel : UInt64) (origin : Origin) (message : List UInt8)
  | drop_puller (channel : UInt64)

/-- What may happen; the worker does nothing else before a call of `receive` returns. -/
inductive Step (codec : Codec) (kind : Kind) (ids : List UInt64) : Inbox → Label → Inbox → Prop
  | allocate {inbox identifier todo allocator} :
      inbox.draining = none → inbox.todo = identifier :: todo →
      inbox.allocator.allocate identifier = some allocator →
      Step codec kind ids inbox (.allocate identifier) { inbox with allocator, todo }
  | arrive {inbox index queue frames} (merges : List Bool) :
      inbox.recvs[index]? = some queue → (∀ frame ∈ frames, frame.header.channel ∈ ids) →
      Step codec kind ids inbox (.arrive index frames) { inbox with
        recvs := inbox.recvs.set index
          (MergeQueue.extend merges queue [Frame.stream codec frames]) }
  | arrive_inner {inbox channel message} : kind = .tcp → channel ∈ ids →
      Step codec kind ids inbox (.arrive_inner channel message) { inbox with
        inner := Function.update inbox.inner channel (inbox.inner channel ++ [message]) }
  | start_receive {inbox inbox'} : inbox.draining = none → inbox.start_receive = some inbox' →
      Step codec kind ids inbox .start_receive inbox'
  | drain {inbox index queue} : inbox.draining = some index → inbox.recvs[index]? = some queue →
      Step codec kind ids inbox (.drain index) (inbox.drain index queue)
  | finish_receive {inbox inbox' fuel} : inbox.draining = some inbox.recvs.length →
      inbox.finish_receive codec fuel = some inbox' →
      Step codec kind ids inbox .finish_receive inbox'
  | pull {inbox inbox' channel origin message} : inbox.draining = none →
      inbox.pull kind channel = some (origin, message, inbox') →
      Step codec kind ids inbox (.pull channel origin message) inbox'
  | drop_puller {inbox channel allocator} : inbox.draining = none →
      inbox.allocator.drop_puller channel = some allocator →
      Step codec kind ids inbox (.drop_puller channel) { inbox with allocator }

abbrev RunsTo (codec : Codec) (kind : Kind) (queues : ℕ) (ids : List UInt64) (labels : List Label)
    (inbox : Inbox) : Prop :=
  Library.Run (Step codec kind ids) (Inbox.new queues ids) labels inbox

/-! ### What has happened -/

/-- The messages that have arrived, each with the number of its queue, and what became of them. -/
structure History where
  arrived : ℕ → List Frame
  /-- Those that are in the queues. -/
  waiting : ℕ → List Frame
  /-- Those that were drained from the queues, in this order. -/
  taken : List (ℕ × Frame)
  /-- Those that were received: the call of `receive` that drained them has returned. -/
  received : List (ℕ × Frame)
  /-- Those that were pulled from the channels, without those of inner pullers. -/
  pulled : UInt64 → List (List UInt8)
  /-- The channels whose puller was dropped. -/
  dropped : List UInt64

namespace History

def empty : History := ⟨fun _ => [], fun _ => [], [], [], fun _ => [], []⟩

def record (history : History) : Label → History
  | .arrive index frames => { history with
      arrived := Function.update history.arrived index (history.arrived index ++ frames)
      waiting := Function.update history.waiting index (history.waiting index ++ frames) }
  | .drain index => { history with
      waiting := Function.update history.waiting index []
      taken := history.taken ++ (history.waiting index).map fun frame => (index, frame) }
  | .finish_receive => { history with received := history.taken }
  | .pull channel .bytes message => { history with
      pulled := Function.update history.pulled channel (history.pulled channel ++ [message]) }
  | .drop_puller channel => { history with dropped := history.dropped ++ [channel] }
  | _ => history

def of (labels : List Label) : History := labels.foldl record empty

theorem of_snoc (labels : List Label) (label : Label) :
    of (labels ++ [label]) = (of labels).record label := by
  rw [of, List.foldl_append]
  rfl

variable (history : History)

/-- The messages that were received for a channel, in this order. -/
def received_for (channel : UInt64) : List (List UInt8) :=
  ((history.received.map Prod.snd).filter (·.header.channel = channel)).map Frame.payload

/-- The messages that were drained from a queue, in this order. -/
def taken_from (index : ℕ) : List Frame :=
  (history.taken.filter (·.1 = index)).map Prod.snd

end History

/-! ### What the state has to do with it -/

/-- The queues, the staged bytes and the channels hold the messages that the history tells, and
    the channels that are not allocated yet are those above the ones that are. -/
structure Represents (codec : Codec) (ids : List UInt64) (inbox : Inbox) (history : History) :
    Prop where
  keeps : inbox.allocator.Keeps (history.received.map Prod.snd) history.pulled
  staged : ∃ rest, history.taken = history.received ++ rest ∧
    Carries codec inbox.allocator.staged (rest.map Prod.snd)
  idle : inbox.draining = none → inbox.allocator.staged = []
  waiting : ∀ index queue, inbox.recvs[index]? = some queue →
    Carries codec queue (history.waiting index)
  arrived : ∀ index, history.arrived index = history.taken_from index ++ history.waiting index
  allocated : ∃ past, ids = past ++ inbox.todo ∧
    (∀ channel ∈ past, inbox.allocator.above channel = false ∧
      (channel ∉ history.dropped → inbox.allocator.pullers channel = true)) ∧
    ∀ channel ∈ inbox.todo, inbox.allocator.above channel = true

variable {codec : Codec} {kind : Kind} {ids : List UInt64} {inbox inbox' : Inbox}
  {history : History} {queues : ℕ}

theorem represents_new (codec : Codec) (queues : ℕ) (ids : List UInt64) :
    Represents codec ids (Inbox.new queues ids) History.empty where
  keeps := TcpAllocator.keeps_new
  staged := ⟨[], rfl, Carries.nil⟩
  idle _ := rfl
  waiting index queue hqueue := by
    rw [List.eq_of_mem_replicate (List.mem_of_getElem? hqueue)]
    exact Carries.nil
  arrived _ := rfl
  allocated := ⟨[], rfl, fun _ hmem => absurd hmem List.not_mem_nil, fun _ _ => rfl⟩

/-- What was allocated and what was not depends on the bound and the pullers only. -/
theorem Represents.allocated_congr (h : Represents codec ids inbox history)
    (hbound : inbox'.allocator.channel_id_bound = inbox.allocator.channel_id_bound)
    (hpullers : inbox'.allocator.pullers = inbox.allocator.pullers)
    (htodo : inbox'.todo = inbox.todo) :
    ∃ past, ids = past ++ inbox'.todo ∧
      (∀ channel ∈ past, inbox'.allocator.above channel = false ∧
        (channel ∉ history.dropped → inbox'.allocator.pullers channel = true)) ∧
      ∀ channel ∈ inbox'.todo, inbox'.allocator.above channel = true := by
  have habove : ∀ channel, inbox'.allocator.above channel = inbox.allocator.above channel := by
    intro channel
    rw [TcpAllocator.above, TcpAllocator.above, hbound]
  simp only [habove, hpullers, htodo]
  exact h.allocated

/-- The channels that are left are above the one that is allocated next. -/
theorem Represents.allocate (hids : ids.Pairwise (· < ·)) (h : Represents codec ids inbox history)
    {identifier : UInt64} {todo : List UInt64} {allocator : TcpAllocator}
    (htodo : inbox.todo = identifier :: todo)
    (hallocate : inbox.allocator.allocate identifier = some allocator) :
    Represents codec ids { inbox with allocator, todo } history := by
  have hkeeps := h.keeps.allocate hallocate
  obtain ⟨past, hpast, hallocated, hleft⟩ := h.allocated
  obtain ⟨-, hallocate⟩ := Option.ite_none_right_eq_some.mp hallocate
  obtain rfl := Option.some.inj hallocate
  rw [htodo] at hpast
  have hsorted : (identifier :: todo).Pairwise (· < ·) := by
    rw [hpast] at hids
    exact (List.pairwise_append.mp hids).2.1
  obtain ⟨hnext, -⟩ := List.pairwise_cons.mp hsorted
  have hbefore : ∀ channel ∈ past, channel < identifier := by
    rw [hpast] at hids
    exact fun channel hmem => (List.pairwise_append.mp hids).2.2 channel hmem identifier
      List.mem_cons_self
  refine ⟨hkeeps, h.staged, h.idle, h.waiting, h.arrived, past ++ [identifier], ?_, ?_, ?_⟩
  · rw [hpast, List.append_assoc, List.singleton_append]
  · intro channel hmem
    rcases List.mem_append.mp hmem with hmem | hmem
    · have hless := hbefore channel hmem
      refine ⟨decide_eq_false (UInt64.not_lt.mpr (UInt64.le_of_lt hless)), fun hkept => ?_⟩
      exact (Function.update_of_ne (UInt64.ne_of_lt hless) _ _).trans
        ((hallocated channel hmem).2 hkept)
    · obtain rfl := List.mem_singleton.mp hmem
      exact ⟨decide_eq_false (UInt64.lt_irrefl channel), fun _ => Function.update_self _ _ _⟩
  · exact fun channel hmem => decide_eq_true (hnext channel hmem)

theorem Represents.arrive (h : Represents codec ids inbox history) {index : ℕ}
    {queue : List (List UInt8)} {frames : List Frame} (merges : List Bool)
    (hqueue : inbox.recvs[index]? = some queue) :
    Represents codec ids { inbox with
      recvs := inbox.recvs.set index (MergeQueue.extend merges queue [Frame.stream codec frames]) }
      (history.record (.arrive index frames)) := by
  refine ⟨h.keeps, h.staged, h.idle, fun other queue' hother => ?_, fun other => ?_, h.allocated⟩
  · by_cases hsame : other = index
    · subst hsame
      rw [List.getElem?_set_self (List.getElem?_eq_some_iff.mp hqueue).1] at hother
      obtain rfl := Option.some.inj hother
      simp only [History.record, Function.update_self]
      exact MergeQueue.carries_extend merges (h.waiting other queue hqueue)
        (Carries.singleton frames)
    · rw [List.getElem?_set_ne (Ne.symm hsame)] at hother
      simp only [History.record, Function.update_of_ne hsame]
      exact h.waiting other queue' hother
  · by_cases hsame : other = index
    · subst hsame
      simp only [History.record, Function.update_self]
      rw [h.arrived other, List.append_assoc]
      rfl
    · simp only [History.record, Function.update_of_ne hsame]
      exact h.arrived other

/-- The canaries are those of channels whose queues are there. -/
theorem Represents.start_receive (h : Represents codec ids inbox history) :
    ∃ to_local, inbox.allocator.drop_channels
        = some { inbox.allocator with canaries := [], to_local } ∧
      Represents codec ids { inbox with
        allocator := { inbox.allocator with canaries := [], to_local }, draining := some 0 }
        history := by
  obtain ⟨to_local, hdrop, hkeeps⟩ := h.keeps.drop_channels
  refine ⟨to_local, hdrop, hkeeps, h.staged, fun hdone => ?_, h.waiting, h.arrived,
    h.allocated_congr rfl rfl rfl⟩
  cases hdone

theorem Represents.drain (h : Represents codec ids inbox history) {index : ℕ}
    {queue : List (List UInt8)} (hqueue : inbox.recvs[index]? = some queue) :
    Represents codec ids (inbox.drain index queue) (history.record (.drain index)) := by
  obtain ⟨rest, htaken, hstaged⟩ := h.staged
  refine ⟨h.keeps.congr rfl rfl rfl rfl,
    ⟨rest ++ (history.waiting index).map fun frame => (index, frame), ?_, ?_⟩, fun hdone => ?_,
    fun other queue' hother => ?_, fun other => ?_, h.allocated_congr rfl rfl rfl⟩
  · simp only [History.record, htaken, List.append_assoc]
  · rw [List.map_append, List.map_map]
    have hsame : (Prod.snd ∘ fun frame : Frame => (index, frame)) = id := rfl
    rw [hsame, List.map_id]
    exact hstaged.append (h.waiting index queue hqueue)
  · cases hdone
  · simp only [Inbox.drain] at hother
    by_cases hsame : other = index
    · subst hsame
      rw [List.getElem?_set_self (List.getElem?_eq_some_iff.mp hqueue).1] at hother
      obtain rfl := Option.some.inj hother
      simp only [History.record, Function.update_self]
      exact Carries.nil
    · rw [List.getElem?_set_ne (Ne.symm hsame)] at hother
      simp only [History.record, Function.update_of_ne hsame]
      exact h.waiting other queue' hother
  · have hbefore := h.arrived other
    simp only [History.taken_from] at hbefore ⊢
    simp only [History.record, List.filter_append, List.map_append, List.filter_map, List.map_map]
    by_cases hsame : other = index
    · subst hsame
      simp [hbefore, Function.comp_def]
    · simp [Function.update_of_ne hsame, hbefore, Function.comp_def, Ne.symm hsame]

/-- All that was drained is handed to the channels. -/
theorem Represents.finish_receive (hlawful : codec.Lawful) (h : Represents codec ids inbox history)
    {fuel : ℕ} (hfinish : inbox.finish_receive codec fuel = some inbox') :
    Represents codec ids inbox' (history.record .finish_receive) := by
  obtain ⟨rest, htaken, hstaged⟩ := h.staged
  obtain ⟨allocator, hsplit, rfl⟩ := Option.map_eq_some_iff.mp hfinish
  obtain rfl := TcpAllocator.eq_of_foldlM_split hlawful hstaged hsplit
  have hkeeps := (@TcpAllocator.Keeps.congr _ { inbox.allocator with staged := [] } _ _ h.keeps rfl rfl rfl rfl).deliver_all (rest.map Prod.snd)
  rw [← List.map_append, ← htaken] at hkeeps
  obtain ⟨to_local, events, hframe⟩ := @TcpAllocator.deliver_all_frame
    { inbox.allocator with staged := [] } (rest.map Prod.snd)
  refine ⟨hkeeps, ⟨[], (List.append_nil _).symm, ?_⟩, fun _ => ?_, h.waiting, h.arrived,
    h.allocated_congr ?_ ?_ rfl⟩
  · rw [TcpAllocator.staged_deliver_all]
    exact Carries.nil
  · exact TcpAllocator.staged_deliver_all _
  · rw [hframe]
  · rw [hframe]

/-- Only a message of the allocator's own counts as pulled. -/
theorem Represents.pull (h : Represents codec ids inbox history) {channel : UInt64}
    {origin : Origin} {message : List UInt8}
    (hpull : inbox.pull kind channel = some (origin, message, inbox')) :
    Represents codec ids inbox' (history.record (.pull channel origin message)) := by
  rcases Inbox.pull_cases hpull with ⟨rfl, rest, rfl⟩ | ⟨rfl, allocator, hbytes, rfl⟩
  · exact ⟨h.keeps, h.staged, h.idle, h.waiting, h.arrived, h.allocated⟩
  · have hkeeps := h.keeps.pull hbytes
    obtain ⟨hstaged, hbound, hpullers⟩ := TcpAllocator.pull_frame hbytes
    refine ⟨hkeeps, ?_, ?_, h.waiting, h.arrived, h.allocated_congr hbound hpullers rfl⟩
    · rw [hstaged]
      exact h.staged
    · rw [hstaged]
      exact h.idle

theorem Represents.drop_puller (h : Represents codec ids inbox history) {channel : UInt64}
    {allocator : TcpAllocator} (hdrop : inbox.allocator.drop_puller channel = some allocator) :
    Represents codec ids { inbox with allocator } (history.record (.drop_puller channel)) := by
  have hkeeps := h.keeps.drop_puller hdrop
  obtain ⟨past, hpast, hallocated, hleft⟩ := h.allocated
  obtain ⟨-, hdrop⟩ := Option.ite_none_right_eq_some.mp hdrop
  obtain rfl := Option.some.inj hdrop
  refine ⟨hkeeps, h.staged, h.idle, h.waiting, h.arrived, past, hpast, fun other hmem => ?_, hleft⟩
  refine ⟨(hallocated other hmem).1, fun hkept => ?_⟩
  simp only [History.record, List.mem_append, List.mem_singleton, not_or] at hkept
  exact (Function.update_of_ne hkept.2 _ _).trans ((hallocated other hmem).2 hkept.1)

theorem Represents.step (hlawful : codec.Lawful) (hids : ids.Pairwise (· < ·))
    (h : Represents codec ids inbox history) {label : Label}
    (hstep : Step codec kind ids inbox label inbox') :
    Represents codec ids inbox' (history.record label) := by
  cases hstep with
  | allocate _ htodo hallocate => exact h.allocate hids htodo hallocate
  | arrive merges hqueue _ => exact h.arrive merges hqueue
  | arrive_inner _ _ => exact ⟨h.keeps, h.staged, h.idle, h.waiting, h.arrived, h.allocated⟩
  | start_receive _ hstart =>
    obtain ⟨to_local, hdrop, hrepresents⟩ := h.start_receive
    rw [Inbox.start_receive, hdrop] at hstart
    obtain rfl := Option.some.inj hstart
    exact hrepresents
  | drain _ hqueue => exact h.drain hqueue
  | finish_receive _ hfinish => exact h.finish_receive hlawful hfinish
  | pull _ hpull => exact h.pull hpull
  | drop_puller _ hdrop => exact h.drop_puller hdrop

/-! ### Runs -/

variable {labels : List Label}

theorem represents_of_run (hlawful : codec.Lawful) (hids : ids.Pairwise (· < ·))
    (h : RunsTo codec kind queues ids labels inbox) :
    Represents codec ids inbox (History.of labels) := by
  refine Library.Run.invariant (P := fun labels inbox =>
    Represents codec ids inbox (History.of labels)) h (represents_new codec queues ids) ?_
  intro labels before label after hbefore hstep
  rw [History.of_snoc]
  exact hbefore.step hlawful hids hstep

/-- A channel of the program whose puller was not dropped holds, with what was pulled from it, all
    that was received for it. -/
theorem Represents.queue_eq (h : Represents codec ids inbox history) {channel : UInt64}
    (hmem : channel ∈ ids) (hkept : channel ∉ history.dropped) :
    history.pulled channel ++ (inbox.allocator.to_local channel).getD []
      = history.received_for channel := by
  refine h.keeps.queue channel ?_
  obtain ⟨past, rfl, hallocated, hleft⟩ := h.allocated
  rcases List.mem_append.mp hmem with hmem | hmem
  · exact Or.inl ((hallocated channel hmem).2 hkept)
  · exact Or.inr (hleft channel hmem)

/-- A worker that pulls from a channel, and has nothing from the inner puller, is given what is in
    its queue. -/
theorem exists_pulls (hidle : inbox.draining = none) {channel : UInt64}
    (hlive : inbox.allocator.pullers channel = true)
    (hinner : kind = .process ∨ inbox.inner channel = []) {queue : List (List UInt8)}
    (hqueue : inbox.allocator.to_local channel = some queue) :
    ∃ inbox', Library.Run (Step codec kind ids) inbox
      (queue.map (Label.pull channel .bytes)) inbox' := by
  induction queue generalizing inbox with
  | nil => exact ⟨inbox, Library.Run.nil⟩
  | cons message queue ih =>
    have hbytes : inbox.allocator.pull channel = some (message, { inbox.allocator with
        to_local := Function.update inbox.allocator.to_local channel (some queue) }) := by
      rw [TcpAllocator.pull, if_pos hlive, hqueue]
    have hpull : inbox.pull kind channel = some (.bytes, message, { inbox with
        allocator := { inbox.allocator with
          to_local := Function.update inbox.allocator.to_local channel (some queue) } }) := by
      rw [Inbox.pull_bytes hinner, hbytes]
      rfl
    obtain ⟨inbox', hrest⟩ := @ih { inbox with
      allocator := { inbox.allocator with
        to_local := Function.update inbox.allocator.to_local channel (some queue) } }
      hidle hlive hinner (Function.update_self _ _ _)
    have hfirst : Library.Run (Step codec kind ids) inbox [Label.pull channel .bytes message] _ :=
      Library.Run.nil.snoc (Step.pull hidle hpull)
    exact ⟨inbox', hfirst.append hrest⟩

/-- How messages are handled, early and late ones too. -/
structure Handled (codec : Codec) (kind : Kind) (ids : List UInt64) (inbox : Inbox)
    (history : History) : Prop where
  /-- No entry is missing for a channel whose puller was dropped. -/
  found : inbox.allocator.drop_channels.isSome
  /-- What has arrived in a queue is in the queue, or was drained in the order of arrival. -/
  arrived : ∀ index, history.arrived index = history.taken_from index ++ history.waiting index
  waiting : ∀ index queue, inbox.recvs[index]? = some queue →
    Carries codec queue (history.waiting index)
  /-- What a call of `receive` has drained is received when it returns. -/
  received : inbox.draining = none → history.received = history.taken
  returns : inbox.draining = some inbox.recvs.length →
    ∃ fuel, (inbox.finish_receive codec fuel).isSome
  /-- A channel that is still to be allocated, or has its puller, has lost nothing. -/
  kept : ∀ channel ∈ ids, channel ∉ history.dropped →
    (channel ∈ inbox.todo ∨ inbox.allocator.pullers channel = true) ∧
      history.pulled channel ++ (inbox.allocator.to_local channel).getD []
        = history.received_for channel
  /-- A puller is given all that was received, in order, when its inner puller has nothing. -/
  pulls : inbox.draining = none → ∀ channel ∈ ids, inbox.allocator.pullers channel = true →
    kind = .process ∨ inbox.inner channel = [] →
    ∃ messages inbox', Library.Run (Step codec kind ids) inbox
        (messages.map (Label.pull channel .bytes)) inbox' ∧
      history.pulled channel ++ messages = history.received_for channel

/-- In every run of either allocator, messages for channels that are not allocated yet wait for
    their pullers in the order in which they were received, and a message is discarded only if the
    puller of its channel was dropped. -/
theorem early_and_late_messages (hlawful : codec.Lawful) (hids : ids.Pairwise (· < ·))
    (h : RunsTo codec kind queues ids labels inbox) :
    Handled codec kind ids inbox (History.of labels) := by
  have hrepresents := represents_of_run hlawful hids h
  refine ⟨?_, hrepresents.arrived, hrepresents.waiting, fun hidle => ?_, fun _ => ?_,
    fun channel hmem hkept => ⟨?_, hrepresents.queue_eq hmem hkept⟩,
    fun hidle channel hmem hlive hinner => ?_⟩
  · obtain ⟨to_local, hdrop, -⟩ := hrepresents.start_receive
    exact Option.isSome_of_eq_some hdrop
  · obtain ⟨rest, htaken, hstaged⟩ := hrepresents.staged
    rw [hrepresents.idle hidle] at hstaged
    rw [htaken, List.map_eq_nil_iff.mp hstaged.eq_nil, List.append_nil]
  · obtain ⟨rest, -, hstaged⟩ := hrepresents.staged
    refine ⟨(rest.map Prod.snd).length, ?_⟩
    rw [Inbox.finish_receive, TcpAllocator.foldlM_split hlawful hstaged (Nat.le_refl _)]
    rfl
  · obtain ⟨past, rfl, hallocated, -⟩ := hrepresents.allocated
    rcases List.mem_append.mp hmem with hmem | hmem
    · exact Or.inr ((hallocated channel hmem).2 hkept)
    · exact Or.inl hmem
  · obtain ⟨hentry, -⟩ := hrepresents.keeps.puller channel hlive
    obtain ⟨queue, hqueue⟩ := Option.isSome_iff_exists.mp hentry
    obtain ⟨inbox', hpulls⟩ := @exists_pulls codec kind ids inbox hidle channel hlive hinner queue hqueue
    refine ⟨queue, inbox', hpulls, ?_⟩
    have hall := hrepresents.keeps.queue channel (Or.inl hlive)
    rwa [hqueue] at hall

/-! ### Three messages -/

/-- A message of one byte on channel 5, to the first worker. -/
def one_byte_for (source : UInt64) (byte : UInt8) : Frame where
  header := { channel := 5, source, target := 0, length := 1, seqno := 0 }
  payload := [byte]
  length_eq := rfl
  nonempty := Nat.one_pos

/-- A message that comes before its channel is allocated. -/
theorem early_run : ∃ inbox, RunsTo Codec.memory .tcp 1 [5]
    [.arrive 0 [one_byte_for 1 7], .start_receive, .drain 0, .finish_receive, .allocate 5,
      .pull 5 .bytes [7]] inbox := by
  have hstart : RunsTo Codec.memory .tcp 1 [5] [] (Inbox.new 1 [5]) := Library.Run.nil
  have harrive := hstart.snoc
    (@Step.arrive _ _ _ _ 0 _ [one_byte_for 1 7] [] rfl (by decide))
  have hbegin := harrive.snoc (Step.start_receive rfl rfl)
  have hdrain := hbegin.snoc (@Step.drain _ _ _ _ 0 _ rfl rfl)
  have hfinish := hdrain.snoc (@Step.finish_receive _ _ _ _ _ 1 rfl rfl)
  have hallocate := hfinish.snoc (@Step.allocate _ _ _ _ 5 [] _ rfl rfl rfl)
  exact ⟨_, hallocate.snoc (@Step.pull _ _ _ _ _ 5 .bytes [7] rfl rfl)⟩

/-- It is pulled, and nothing is left to be pulled. -/
theorem early_and_late_messages_example : ∃ inbox labels,
    RunsTo Codec.memory .tcp 1 [5] labels inbox ∧
      Handled Codec.memory .tcp [5] inbox (History.of labels) ∧
      (History.of labels).pulled 5 = [[7]] ∧ (History.of labels).received_for 5 = [[7]] := by
  obtain ⟨inbox, hrun⟩ := early_run
  exact ⟨inbox, _, hrun,
    early_and_late_messages Codec.memory_lawful (List.pairwise_singleton _ _) hrun, rfl, rfl⟩

/-- A message arrives, and is received, before the channel is allocated.  Then two more arrive from other
    processes, the first one in the second queue; the one in the first queue is received first, and a
    message that comes later from the own process is pulled before all three.  The early message is the
    next one.  When the puller is dropped the other two have been received, and one of them has not been
    pulled; it is discarded. -/
theorem received_message_discarded : ∃ inbox inbox',
    RunsTo Codec.memory .tcp 2 [5]
      [.arrive 0 [one_byte_for 1 6], .start_receive, .drain 0, .drain 1, .finish_receive, .allocate 5,
        .arrive 1 [one_byte_for 2 7], .arrive 0 [one_byte_for 1 8], .start_receive, .drain 0, .drain 1,
        .finish_receive, .arrive_inner 5 [9], .pull 5 .inner [9], .pull 5 .bytes [6],
        .pull 5 .bytes [8]] inbox ∧
      inbox.allocator.to_local 5 = some [[7]] ∧
    RunsTo Codec.memory .tcp 2 [5]
      [.arrive 0 [one_byte_for 1 6], .start_receive, .drain 0, .drain 1, .finish_receive, .allocate 5,
        .arrive 1 [one_byte_for 2 7], .arrive 0 [one_byte_for 1 8], .start_receive, .drain 0, .drain 1,
        .finish_receive, .arrive_inner 5 [9], .pull 5 .inner [9], .pull 5 .bytes [6],
        .pull 5 .bytes [8], .drop_puller 5, .start_receive] inbox' ∧
      inbox'.allocator.to_local 5 = none := by
  have hstart : RunsTo Codec.memory .tcp 2 [5] [] (Inbox.new 2 [5]) := Library.Run.nil
  have hearly := hstart.snoc
    (@Step.arrive _ _ _ _ 0 _ [one_byte_for 1 6] [] rfl (by decide))
  have hbegin := hearly.snoc (Step.start_receive rfl rfl)
  have hdrain := hbegin.snoc (@Step.drain _ _ _ _ 0 _ rfl rfl)
  have hdrain' := hdrain.snoc (@Step.drain _ _ _ _ 1 _ rfl rfl)
  have hkept := hdrain'.snoc (@Step.finish_receive _ _ _ _ _ 1 rfl rfl)
  have hallocate := hkept.snoc (@Step.allocate _ _ _ _ 5 [] _ rfl rfl rfl)
  have hfirst := hallocate.snoc
    (@Step.arrive _ _ _ _ 1 _ [one_byte_for 2 7] [] rfl (by decide))
  have hsecond := hfirst.snoc
    (@Step.arrive _ _ _ _ 0 _ [one_byte_for 1 8] [] rfl (by decide))
  have hagain := hsecond.snoc (Step.start_receive rfl rfl)
  have hdrained := hagain.snoc (@Step.drain _ _ _ _ 0 _ rfl rfl)
  have hdrained' := hdrained.snoc (@Step.drain _ _ _ _ 1 _ rfl rfl)
  have hfinish := hdrained'.snoc (@Step.finish_receive _ _ _ _ _ 1 rfl rfl)
  have hinner := hfinish.snoc (@Step.arrive_inner _ _ _ _ 5 [9] rfl (by decide))
  have hpull := hinner.snoc (@Step.pull _ _ _ _ _ 5 .inner [9] rfl rfl)
  have hpull' := hpull.snoc (@Step.pull _ _ _ _ _ 5 .bytes [6] rfl rfl)
  have hpull'' := hpull'.snoc (@Step.pull _ _ _ _ _ 5 .bytes [8] rfl rfl)
  have hdrop := hpull''.snoc (@Step.drop_puller _ _ _ _ 5 _ rfl rfl)
  exact ⟨_, _, hpull'', rfl, hdrop.snoc (Step.start_receive rfl rfl), rfl⟩

end Channels

end Timely.Network
