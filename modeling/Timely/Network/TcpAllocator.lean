/-
  Timely/Network/TcpAllocator.lean
  ================================
  **Receiving messages at a worker** (`allocator/zero_copy/allocator.rs`).

  Received bytes are split into messages, and each message is put in the queue of
  its channel.  There may be messages for a channel before it is allocated, and
  after its puller was dropped.  What is shown is that the queue of a channel with
  a live puller has had all its messages, and only these.
-/
import Timely.Network.MessageHeader
import Mathlib.Logic.Function.Basic

set_option linter.unusedSectionVars false

namespace Timely.Network

/-- Reports about channels. -/
inductive Event where
  | pushed (count : ℕ)

/-- The receiving half of a worker's allocator. -/
structure TcpAllocator where
  /-- Staging area for inbound bytes. -/
  staged : List (List UInt8)
  /-- Channels whose puller was dropped. -/
  canaries : List UInt64
  channel_id_bound : Option UInt64
  /-- To worker-local typed pullers. -/
  to_local : UInt64 → Option (List (List UInt8))
  events : List (UInt64 × Event)
  /-- The channels whose puller is held by somebody. -/
  pullers : UInt64 → Bool

namespace TcpAllocator

variable (allocator : TcpAllocator)

def new : TcpAllocator where
  staged := []
  canaries := []
  channel_id_bound := none
  to_local := fun _ => none
  events := []
  pullers := fun _ => false

/-- Whether an identifier is above those allocated. -/
def above (identifier : UInt64) : Bool :=
  (allocator.channel_id_bound.map fun bound => decide (bound < identifier)).getD true

/-- Allocates a channel; identifiers are allocated in order. -/
def allocate (identifier : UInt64) : Option TcpAllocator :=
  if allocator.above identifier then
    some { allocator with
      channel_id_bound := some identifier
      to_local := Function.update allocator.to_local identifier
        (some ((allocator.to_local identifier).getD []))
      pullers := Function.update allocator.pullers identifier true }
  else none

/-- Drops the puller of a channel, which its canary reports. -/
def drop_puller (identifier : UInt64) : Option TcpAllocator :=
  if allocator.pullers identifier then
    some { allocator with
      canaries := allocator.canaries ++ [identifier]
      pullers := Function.update allocator.pullers identifier false }
  else none

/-- Pulls the next message of a channel, if there is one. -/
def pull (identifier : UInt64) : Option (List UInt8 × TcpAllocator) :=
  if allocator.pullers identifier then
    match allocator.to_local identifier with
    | some (bytes :: queue) =>
      some (bytes, { allocator with
        to_local := Function.update allocator.to_local identifier (some queue) })
    | _ => none
  else none

/-- Removes a channel which must be there. -/
def remove (to_local : UInt64 → Option (List (List UInt8))) (dropped_channel : UInt64) :
    Option (UInt64 → Option (List (List UInt8))) :=
  (to_local dropped_channel).map fun _ => Function.update to_local dropped_channel none

/-- Checks for channels whose puller has been dropped. -/
def drop_channels : Option TcpAllocator :=
  (allocator.canaries.foldlM remove allocator.to_local).map fun to_local =>
    { allocator with canaries := [], to_local }

/-- Hands a message to its channel. -/
def deliver (header : MessageHeader) (peel : List UInt8) : TcpAllocator :=
  let events := allocator.events ++ [(header.channel, Event.pushed 1)]
  match allocator.to_local header.channel with
  | none =>
    -- data may be received before allocating
    if allocator.above header.channel then
      { allocator with
        events
        to_local := Function.update allocator.to_local header.channel (some [peel]) }
    else { allocator with events }
  | some queue =>
    { allocator with
      events
      to_local := Function.update allocator.to_local header.channel (some (queue ++ [peel])) }

/-- Splits bytes into messages.  A header that cannot be read is tried again, without end;
    this has no result, nor has a failed assertion. -/
def split (codec : Codec) : ℕ → TcpAllocator → List UInt8 → Option TcpAllocator
  | _, allocator, [] => some allocator
  | 0, _, _ :: _ => none
  | fuel + 1, allocator, byte :: bytes =>
    match MessageHeader.try_read codec (byte :: bytes) with
    | some header =>
      if header.required_bytes ≤ (byte :: bytes).length then
        let peel := ((byte :: bytes).take header.required_bytes).drop header_bytes
        split codec fuel (allocator.deliver header peel)
          ((byte :: bytes).drop header.required_bytes)
      else none
    | none => split codec fuel allocator (byte :: bytes)

/-- Receives what is staged, the loop over each slice being run for at most `fuel` rounds. -/
def receive (codec : Codec) (fuel : ℕ) : Option TcpAllocator :=
  allocator.drop_channels.bind fun allocator =>
    allocator.staged.foldlM (split codec fuel) { allocator with staged := [] }

/-- Messages delivered one after the other. -/
def deliver_all (frames : List Frame) : TcpAllocator :=
  frames.foldl (fun allocator frame => allocator.deliver frame.header frame.payload) allocator

/-! ### Splitting whole messages -/

variable {codec : Codec} {allocator} {allocator' : TcpAllocator} {fuel : ℕ} {frames : List Frame}

theorem split_bytes (h : codec.Lawful) (frame : Frame) (rest : List UInt8) :
    split codec (fuel + 1) allocator (frame.bytes codec ++ rest)
      = split codec fuel (allocator.deliver frame.header frame.payload) rest := by
  have hlength : frame.header.required_bytes ≤ (frame.bytes codec ++ rest).length := by
    rw [List.length_append, Frame.length_bytes h]
    omega
  have hread := Frame.try_read_bytes h frame rest
  have hpeel : ((frame.bytes codec ++ rest).take frame.header.required_bytes).drop header_bytes
      = frame.payload := by
    rw [Frame.take_bytes h, Frame.drop_header h]
  have hdrop := Frame.drop_bytes h frame rest
  cases hbytes : frame.bytes codec ++ rest with
  | nil =>
    rw [hbytes, MessageHeader.required_bytes, header_bytes, List.length_nil] at hlength
    omega
  | cons byte bytes =>
    rw [hbytes] at hlength hread hpeel hdrop
    rw [split, hread]
    simp only [if_pos hlength, hpeel, hdrop]

/-- The loop ends as soon as it has had a round for each message. -/
theorem split_stream (h : codec.Lawful) (fuel : ℕ) (allocator : TcpAllocator) :
    split codec fuel allocator (Frame.stream codec frames)
      = if frames.length ≤ fuel then some (allocator.deliver_all frames) else none := by
  induction frames generalizing fuel allocator with
  | nil =>
    cases fuel <;> simp [split, deliver_all]
  | cons frame frames ih =>
    rw [Frame.stream_cons]
    cases fuel with
    | zero =>
      have hpos := Frame.length_bytes_pos h frame
      cases hbytes : frame.bytes codec ++ Frame.stream codec frames with
      | nil =>
        obtain ⟨hnil, -⟩ := List.append_eq_nil_iff.mp hbytes
        rw [hnil] at hpos
        exact absurd hpos (Nat.lt_irrefl 0)
      | cons byte bytes => rfl
    | succ fuel =>
      rw [split_bytes h, ih]
      simp only [List.length_cons, Nat.add_le_add_iff_right]
      rfl

theorem deliver_all_append (first second : List Frame) :
    allocator.deliver_all (first ++ second)
      = (allocator.deliver_all first).deliver_all second := List.foldl_append

/-- All bytes staged are split. -/
theorem foldlM_split (h : codec.Lawful) {queue : List (List UInt8)}
    (hqueue : Carries codec queue frames) (hfuel : frames.length ≤ fuel) :
    queue.foldlM (split codec fuel) allocator = some (allocator.deliver_all frames) := by
  induction queue generalizing allocator frames with
  | nil =>
    rw [hqueue.eq_nil]
    rfl
  | cons bytes queue ih =>
    obtain ⟨first, rest, rfl, hrest, rfl⟩ := hqueue.of_cons
    rw [List.length_append] at hfuel
    rw [List.foldlM_cons, split_stream h, if_pos (by omega), deliver_all_append]
    exact ih hrest (by omega)

/-- There is only one result. -/
theorem eq_of_foldlM_split (h : codec.Lawful) {queue : List (List UInt8)}
    (hqueue : Carries codec queue frames)
    (hsplit : queue.foldlM (split codec fuel) allocator = some allocator') :
    allocator' = allocator.deliver_all frames := by
  induction queue generalizing allocator frames with
  | nil =>
    rw [hqueue.eq_nil]
    exact (Option.some.inj hsplit).symm
  | cons bytes queue ih =>
    obtain ⟨first, rest, rfl, hrest, rfl⟩ := hqueue.of_cons
    rw [List.foldlM_cons, split_stream h] at hsplit
    obtain ⟨middle, hmiddle, hsplit⟩ := Option.bind_eq_some_iff.mp hsplit
    obtain ⟨-, hmiddle⟩ := Option.ite_none_right_eq_some.mp hmiddle
    obtain rfl := Option.some.inj hmiddle
    rw [deliver_all_append]
    exact ih hrest hsplit

/-! ### What the queues of channels hold -/

/-- A channel with a live puller, or not allocated yet, has had the messages that were
    received for it; some of them have been pulled. -/
structure Keeps (allocator : TcpAllocator) (log : List Frame)
    (pulled : UInt64 → List (List UInt8)) : Prop where
  queue : ∀ channel, allocator.pullers channel = true ∨ allocator.above channel = true →
    pulled channel ++ (allocator.to_local channel).getD []
      = (log.filter (·.header.channel = channel)).map Frame.payload
  puller : ∀ channel, allocator.pullers channel = true →
    (allocator.to_local channel).isSome ∧ allocator.above channel = false
  canaries : allocator.canaries.Nodup
  canary : ∀ channel ∈ allocator.canaries, (allocator.to_local channel).isSome
    ∧ allocator.above channel = false ∧ allocator.pullers channel = false

variable {log : List Frame} {pulled : UInt64 → List (List UInt8)} {identifier : UInt64}

theorem keeps_new : Keeps new [] fun _ => [] where
  queue _ _ := rfl
  puller _ hlive := absurd hlive Bool.false_ne_true
  canaries := List.nodup_nil
  canary _ hmem := absurd hmem List.not_mem_nil

/-- What the bytes staged and the events are does not matter. -/
theorem Keeps.congr (h : Keeps allocator log pulled)
    (hcanaries : allocator'.canaries = allocator.canaries)
    (hbound : allocator'.channel_id_bound = allocator.channel_id_bound)
    (hlocal : allocator'.to_local = allocator.to_local)
    (hpullers : allocator'.pullers = allocator.pullers) : Keeps allocator' log pulled := by
  obtain ⟨staged, canaries, bound, to_local, events, pullers⟩ := allocator
  obtain ⟨staged', canaries', bound', to_local', events', pullers'⟩ := allocator'
  subst hcanaries hbound hlocal hpullers
  exact ⟨h.queue, h.puller, h.canaries, h.canary⟩

theorem Keeps.allocate (h : Keeps allocator log pulled)
    (hallocate : allocator.allocate identifier = some allocator') :
    Keeps allocator' log pulled := by
  obtain ⟨habove, hallocate⟩ := Option.ite_none_right_eq_some.mp hallocate
  obtain rfl := Option.some.inj hallocate
  have hout : allocator.pullers identifier ≠ true := fun hlive => by
    rw [(h.puller identifier hlive).2] at habove
    exact Bool.false_ne_true habove
  -- who was below the bound is below the new one
  have hbelow : ∀ {channel}, allocator.above channel = false → ¬ identifier < channel := by
    intro channel hfalse hless
    rw [above] at hfalse habove
    cases hbound : allocator.channel_id_bound with
    | none =>
      rw [hbound] at hfalse
      cases hfalse
    | some bound =>
      rw [hbound] at hfalse habove
      simp only [Option.map_some, Option.getD_some, decide_eq_true_eq, decide_eq_false_iff_not]
        at hfalse habove
      exact hfalse (UInt64.lt_trans habove hless)
  constructor
  · intro channel hchannel
    by_cases hsame : channel = identifier
    · subst hsame
      simpa using h.queue channel (Or.inr habove)
    · simp only [Function.update_of_ne hsame] at hchannel ⊢
      refine h.queue channel (hchannel.imp_right fun hless => ?_)
      by_contra hfalse
      exact hbelow (Bool.eq_false_iff.mpr hfalse) (of_decide_eq_true hless)
  · intro channel hlive
    by_cases hsame : channel = identifier
    · subst hsame
      exact ⟨by simp, decide_eq_false (UInt64.lt_irrefl channel)⟩
    · simp only [Function.update_of_ne hsame] at hlive ⊢
      obtain ⟨hentry, hfalse⟩ := h.puller channel hlive
      exact ⟨hentry, decide_eq_false (hbelow hfalse)⟩
  · exact h.canaries
  · intro channel hmem
    obtain ⟨hentry, hfalse, hdropped⟩ := h.canary channel hmem
    have hsame : channel ≠ identifier := by
      intro heq
      rw [heq, habove] at hfalse
      exact Bool.false_ne_true hfalse.symm
    simp only [Function.update_of_ne hsame]
    exact ⟨hentry, decide_eq_false (hbelow hfalse), hdropped⟩

theorem Keeps.drop_puller (h : Keeps allocator log pulled)
    (hdrop : allocator.drop_puller identifier = some allocator') :
    Keeps allocator' log pulled := by
  obtain ⟨hlive, hdrop⟩ := Option.ite_none_right_eq_some.mp hdrop
  obtain rfl := Option.some.inj hdrop
  obtain ⟨hentry, hbelow⟩ := h.puller identifier hlive
  have hkept : ∀ {channel}, Function.update allocator.pullers identifier false channel = true →
      allocator.pullers channel = true := by
    intro channel hchannel
    by_cases hsame : channel = identifier
    · rw [hsame, Function.update_self] at hchannel
      cases hchannel
    · rwa [Function.update_of_ne hsame] at hchannel
  constructor
  · exact fun channel hchannel => h.queue channel (hchannel.imp_left hkept)
  · exact fun channel hchannel => h.puller channel (hkept hchannel)
  · refine List.nodup_append.mpr ⟨h.canaries, List.pairwise_singleton _ _, fun channel hmem other hother => ?_⟩
    rintro rfl
    rw [List.mem_singleton.mp hother] at hmem
    have hdropped := (h.canary identifier hmem).2.2
    rw [hlive] at hdropped
    cases hdropped
  · intro channel hmem
    rcases List.mem_append.mp hmem with hmem | hmem
    · obtain ⟨hentry', hfalse, hdropped⟩ := h.canary channel hmem
      refine ⟨hentry', hfalse, Bool.eq_false_iff.mpr fun hchannel => ?_⟩
      rw [hkept hchannel] at hdropped
      exact Bool.false_ne_true hdropped.symm
    · obtain rfl := List.mem_singleton.mp hmem
      exact ⟨hentry, hbelow, Function.update_self _ _ _⟩

/-- What is pulled was at the front of the queue. -/
theorem Keeps.pull (h : Keeps allocator log pulled) {bytes : List UInt8}
    (hpull : allocator.pull identifier = some (bytes, allocator')) :
    Keeps allocator' log (Function.update pulled identifier (pulled identifier ++ [bytes])) := by
  obtain ⟨hlive, hqueue⟩ := Option.ite_none_right_eq_some.mp hpull
  rcases hlocal : allocator.to_local identifier with _ | _ | ⟨bytes', queue⟩
  · rw [hlocal] at hqueue
    cases hqueue
  · rw [hlocal] at hqueue
    cases hqueue
  · rw [hlocal] at hqueue
    obtain ⟨rfl, rfl⟩ := Prod.mk.inj (Option.some.inj hqueue)
    have hentry : ∀ channel, (allocator.to_local channel).isSome →
        (Function.update allocator.to_local identifier (some queue) channel).isSome := by
      intro channel hsome
      by_cases hsame : channel = identifier
      · rw [hsame, Function.update_self]
        rfl
      · rwa [Function.update_of_ne hsame]
    constructor
    · intro channel hchannel
      have hbefore := h.queue channel hchannel
      by_cases hsame : channel = identifier
      · subst hsame
        rw [hlocal] at hbefore
        simpa using hbefore
      · simpa only [Function.update_of_ne hsame] using hbefore
    · intro channel hchannel
      obtain ⟨hsome, hbelow⟩ := h.puller channel hchannel
      exact ⟨hentry channel hsome, hbelow⟩
    · exact h.canaries
    · intro channel hmem
      obtain ⟨hsome, hrest⟩ := h.canary channel hmem
      exact ⟨hentry channel hsome, hrest⟩

/-- A pull changes one queue only. -/
theorem pull_frame {bytes : List UInt8}
    (hpull : allocator.pull identifier = some (bytes, allocator')) :
    allocator'.staged = allocator.staged ∧
      allocator'.channel_id_bound = allocator.channel_id_bound ∧
      allocator'.pullers = allocator.pullers := by
  obtain ⟨-, hqueue⟩ := Option.ite_none_right_eq_some.mp hpull
  split at hqueue
  · obtain ⟨-, rfl⟩ := Prod.mk.inj (Option.some.inj hqueue)
    exact ⟨rfl, rfl, rfl⟩
  · cases hqueue

/-! ### Receiving -/

/-- Different channels which are there are removed. -/
theorem foldlM_remove {channels : List UInt64} {to_local : UInt64 → Option (List (List UInt8))}
    (hnodup : channels.Nodup) (hsome : ∀ channel ∈ channels, (to_local channel).isSome) :
    ∃ to_local', channels.foldlM remove to_local = some to_local'
      ∧ ∀ channel, channel ∉ channels → to_local' channel = to_local channel := by
  induction channels generalizing to_local with
  | nil => exact ⟨to_local, rfl, fun _ _ => rfl⟩
  | cons first channels ih =>
    obtain ⟨hfirst, hnodup⟩ := List.nodup_cons.mp hnodup
    obtain ⟨queue, hqueue⟩ := Option.isSome_iff_exists.mp (hsome first List.mem_cons_self)
    have hrest : ∀ channel ∈ channels,
        (Function.update to_local first none channel).isSome := by
      intro channel hmem
      have hne : channel ≠ first := fun heq => hfirst (heq ▸ hmem)
      rw [Function.update_of_ne hne]
      exact hsome channel (List.mem_cons_of_mem _ hmem)
    obtain ⟨to_local', hfold, hsame⟩ := ih hnodup hrest
    refine ⟨to_local', ?_, fun channel hout => ?_⟩
    · rw [List.foldlM_cons, remove, hqueue]
      exact hfold
    · rw [List.mem_cons, not_or] at hout
      rw [hsame channel hout.2, Function.update_of_ne hout.1]

/-- No channel is missed when its puller has been dropped. -/
theorem Keeps.drop_channels (h : Keeps allocator log pulled) :
    ∃ to_local, allocator.drop_channels = some { allocator with canaries := [], to_local }
      ∧ Keeps { allocator with canaries := [], to_local } log pulled := by
  obtain ⟨to_local, hfold, hsame⟩ := foldlM_remove h.canaries fun channel hmem =>
    (h.canary channel hmem).1
  have hlive : ∀ channel, allocator.pullers channel = true → to_local channel
      = allocator.to_local channel := by
    refine fun channel hlive => hsame channel fun hmem => ?_
    rw [(h.canary channel hmem).2.2] at hlive
    cases hlive
  have habove : ∀ channel, allocator.above channel = true → to_local channel
      = allocator.to_local channel := by
    refine fun channel habove => hsame channel fun hmem => ?_
    rw [(h.canary channel hmem).2.1] at habove
    cases habove
  refine ⟨to_local, by rw [TcpAllocator.drop_channels, hfold]; rfl, ?_⟩
  constructor
  · intro channel hchannel
    have hqueue : to_local channel = allocator.to_local channel :=
      hchannel.elim (hlive channel) (habove channel)
    simp only [hqueue]
    exact h.queue channel hchannel
  · intro channel hchannel
    have hqueue : to_local channel = allocator.to_local channel := hlive channel hchannel
    simp only [hqueue]
    exact h.puller channel hchannel
  · exact List.nodup_nil
  · exact fun channel hmem => absurd hmem List.not_mem_nil

/-- A message goes to its channel. -/
theorem Keeps.deliver (h : Keeps allocator log pulled) (frame : Frame) :
    Keeps (allocator.deliver frame.header frame.payload) (log ++ [frame]) pulled := by
  have hother : ∀ {channel}, channel ≠ frame.header.channel →
      ((log ++ [frame]).filter (·.header.channel = channel)).map Frame.payload
        = (log.filter (·.header.channel = channel)).map Frame.payload := by
    intro channel hne
    rw [List.filter_append, List.filter_cons_of_neg (by simpa using hne.symm), List.filter_nil,
      List.append_nil]
  have hthis : ((log ++ [frame]).filter (·.header.channel = frame.header.channel)).map Frame.payload
      = (log.filter (·.header.channel = frame.header.channel)).map Frame.payload
        ++ [frame.payload] := by
    rw [List.filter_append, List.filter_cons_of_pos (by simp), List.filter_nil, List.map_append]
    rfl
  -- an entry is made, or added to
  have hadded : ∀ queue : List (List UInt8),
      queue = (allocator.to_local frame.header.channel).getD [] →
      ∀ events, Keeps { allocator with
        events
        to_local := Function.update allocator.to_local frame.header.channel
          (some (queue ++ [frame.payload])) } (log ++ [frame]) pulled := by
    intro queue hqueue events
    have hentry : ∀ channel, (allocator.to_local channel).isSome →
        (Function.update allocator.to_local frame.header.channel
          (some (queue ++ [frame.payload])) channel).isSome := by
      intro channel hsome
      by_cases hsame : channel = frame.header.channel
      · rw [hsame, Function.update_self]
        rfl
      · rwa [Function.update_of_ne hsame]
    constructor
    · intro channel hchannel
      have hbefore := h.queue channel hchannel
      by_cases hsame : channel = frame.header.channel
      · subst hsame
        rw [hthis, ← hbefore]
        simp [hqueue]
      · rw [hother hsame, ← hbefore]
        simp only [Function.update_of_ne hsame]
    · intro channel hchannel
      obtain ⟨hsome, hbelow⟩ := h.puller channel hchannel
      exact ⟨hentry channel hsome, hbelow⟩
    · exact h.canaries
    · intro channel hmem
      obtain ⟨hsome, hrest⟩ := h.canary channel hmem
      exact ⟨hentry channel hsome, hrest⟩
  rw [TcpAllocator.deliver]
  cases hlocal : allocator.to_local frame.header.channel with
  | none =>
    by_cases habove : allocator.above frame.header.channel = true
    · rw [if_pos habove]
      exact hadded [] (by rw [hlocal]; rfl) _
    · -- the puller was dropped
      rw [if_neg habove]
      suffices hlog : Keeps allocator (log ++ [frame]) pulled from hlog.congr rfl rfl rfl rfl
      refine ⟨fun channel hchannel => ?_, h.puller, h.canaries, h.canary⟩
      rw [hother]
      · exact h.queue channel hchannel
      · rintro rfl
        rcases hchannel with hlive | habove'
        · have hsome := (h.puller _ hlive).1
          rw [hlocal] at hsome
          cases hsome
        · exact habove habove'
  | some queue => exact hadded queue (by rw [hlocal]; rfl) _

theorem Keeps.deliver_all (h : Keeps allocator log pulled) (frames : List Frame) :
    Keeps (allocator.deliver_all frames) (log ++ frames) pulled := by
  induction frames generalizing allocator log with
  | nil =>
    rw [List.append_nil]
    exact h
  | cons frame frames ih =>
    have hrest := ih (h.deliver frame)
    rwa [List.append_assoc] at hrest

/-- A delivery changes the queues and the events only. -/
theorem deliver_frame (header : MessageHeader) (peel : List UInt8) :
    ∃ to_local events, allocator.deliver header peel = { allocator with to_local, events } := by
  rw [TcpAllocator.deliver]
  cases allocator.to_local header.channel with
  | none =>
    by_cases habove : allocator.above header.channel = true
    · rw [if_pos habove]
      exact ⟨_, _, rfl⟩
    · rw [if_neg habove]
      exact ⟨_, _, rfl⟩
  | some queue => exact ⟨_, _, rfl⟩

theorem deliver_all_frame (frames : List Frame) :
    ∃ to_local events, allocator.deliver_all frames = { allocator with to_local, events } := by
  induction frames generalizing allocator with
  | nil => exact ⟨_, _, rfl⟩
  | cons frame frames ih =>
    obtain ⟨to_local, events, hfirst⟩ := @deliver_frame allocator frame.header frame.payload
    obtain ⟨to_local', events', hrest⟩ := @ih (allocator.deliver frame.header frame.payload)
    refine ⟨to_local', events', hrest.trans ?_⟩
    rw [hfirst]

theorem staged_deliver_all (frames : List Frame) :
    (allocator.deliver_all frames).staged = allocator.staged := by
  obtain ⟨to_local, events, hframe⟩ := @deliver_all_frame allocator frames
  rw [hframe]

/-- Whatever the loops are run for, receiving hands the staged messages to their channels. -/
theorem Keeps.receive (hlawful : codec.Lawful) (h : Keeps allocator log pulled)
    (hstaged : Carries codec allocator.staged frames)
    (hreceive : allocator.receive codec fuel = some allocator') :
    allocator'.staged = [] ∧ Keeps allocator' (log ++ frames) pulled := by
  obtain ⟨to_local, hdrop, hkeeps⟩ := h.drop_channels
  rw [TcpAllocator.receive, hdrop] at hreceive
  obtain rfl := eq_of_foldlM_split hlawful hstaged hreceive
  refine ⟨staged_deliver_all frames, Keeps.deliver_all ?_ frames⟩
  exact hkeeps.congr rfl rfl rfl rfl

/-- Receiving ends. -/
theorem Keeps.receive_isSome (hlawful : codec.Lawful) (h : Keeps allocator log pulled)
    (hstaged : Carries codec allocator.staged frames) (hfuel : frames.length ≤ fuel) :
    (allocator.receive codec fuel).isSome := by
  obtain ⟨to_local, hdrop, hkeeps⟩ := h.drop_channels
  rw [TcpAllocator.receive, hdrop]
  exact Option.isSome_of_eq_some (foldlM_split hlawful hstaged hfuel)

end TcpAllocator

end Timely.Network
