/-
  Timely/Network/Sockets.lean
  ===========================
  **How processes get their sockets** (`communication/src/networking.rs`,
  `create_sockets`, `start_connections` and `await_connections`).

  Each process connects to the processes before it in one thread, and awaits those
  behind it in another one.  A new connection starts with sixteen bytes that tell
  who has started it.  The threads of all processes run in any order: a process is
  refused as long as the other one has not bound its address, connections wait in
  the order of their arrival, and bytes arrive one by one.  The network itself loses
  nothing, and a thread that accepts or reads does not fail.  How words are encoded
  is left open, as it is for headers.
-/
import Timely.Library.Run
import Mathlib.Algebra.Order.Ring.Nat
import Mathlib.Data.List.Basic
import Mathlib.Data.List.Nodup
import Mathlib.Logic.Function.Basic
import Mathlib.Tactic.Common
import Mathlib.Tactic.Ring

set_option linter.unusedSectionVars false

namespace Timely.Network

open Library

/-! ### The handshake -/

/-- How words are encoded and decoded, with what is left behind a decoded one. -/
structure WordCodec where
  encode : UInt64 → List UInt8
  decode : List UInt8 → Option (UInt64 × List UInt8)

/-- What is assumed of the encoding. -/
structure WordCodec.Lawful (codec : WordCodec) : Prop where
  length_encode : ∀ word, (codec.encode word).length = 8
  decode_encode : ∀ word rest, codec.decode (codec.encode word ++ rest) = some (word, rest)

/-- Sent immediately after establishing a stream. -/
def HANDSHAKE_MAGIC : UInt64 := 0xc2f1fb770118add9

/-- A stream: the process that has started it, the one that awaits it, and the bytes that the first has
    written and the second has not read. -/
structure TcpStream where
  client : ℕ
  server : ℕ
  bytes : List UInt8

/-- The thread that starts connections, with the streams so far, in the order of the processes. -/
inductive StartTask where
  | connecting (results : List ℕ)
  | sending (results : List ℕ) (stream : ℕ) (unsent : List UInt8)

/-- The thread that awaits connections, with the streams so far, and how many are to be accepted. -/
inductive AwaitTask where
  | binding
  | accepting (results : List (Option ℕ)) (left : ℕ)
  | reading (results : List (Option ℕ)) (left : ℕ) (stream : ℕ)
  | returned_error
  | panicked

/-- The streams that have been established, those that wait to be accepted, and the two threads of each
    process. -/
structure Sockets where
  streams : List TcpStream
  backlog : ℕ → List ℕ
  starting : ℕ → StartTask
  awaiting : ℕ → AwaitTask

namespace Sockets

def start : Sockets where
  streams := []
  backlog _ := []
  starting _ := .connecting []
  awaiting _ := .binding

/-- What a process writes on a new stream. -/
def handshake (codec : WordCodec) (my_index : ℕ) : List UInt8 :=
  codec.encode HANDSHAKE_MAGIC ++ codec.encode (UInt64.ofNat my_index)

/-- The listener exists from when it is bound until its thread returns. -/
def listening : AwaitTask → Bool
  | .accepting _ left => decide (0 < left)
  | .reading _ _ _ => true
  | _ => false

/-- A process connects to the first of the processes before it that it has no stream to. -/
def connect (codec : WordCodec) (my_index : ℕ) (sockets : Sockets) : Option Sockets :=
  match sockets.starting my_index with
  | .sending _ _ _ => none
  | .connecting results =>
    if results.length < my_index ∧ listening (sockets.awaiting results.length) = true then
      some
        { sockets with
          streams := sockets.streams ++ [⟨my_index, results.length, []⟩]
          backlog := Function.update sockets.backlog results.length
            (sockets.backlog results.length ++ [sockets.streams.length])
          starting := Function.update sockets.starting my_index
            (.sending results sockets.streams.length (handshake codec my_index)) }
    else none

/-- One more byte of the handshake arrives. -/
def write (my_index : ℕ) (sockets : Sockets) : Option Sockets :=
  match sockets.starting my_index with
  | .sending results stream (byte :: unsent) =>
    some
      { sockets with
        streams := sockets.streams.modify stream fun socket =>
          { socket with bytes := socket.bytes ++ [byte] }
        starting := Function.update sockets.starting my_index
          (if unsent.isEmpty then .connecting (results ++ [stream]) else .sending results stream unsent) }
  | _ => none

/-- The listener is bound. -/
def bind (processes my_index : ℕ) (sockets : Sockets) : Option Sockets :=
  match sockets.awaiting my_index with
  | .binding =>
    some
      { sockets with
        awaiting := Function.update sockets.awaiting my_index
          (.accepting (List.replicate (processes - my_index - 1) none) (processes - my_index - 1)) }
  | _ => none

/-- The first connection that waits is accepted. -/
def accept (my_index : ℕ) (sockets : Sockets) : Option Sockets :=
  match sockets.awaiting my_index, sockets.backlog my_index with
  | .accepting results (left + 1), stream :: rest =>
    some
      { sockets with
        backlog := Function.update sockets.backlog my_index rest
        awaiting := Function.update sockets.awaiting my_index (.reading results left stream) }
  | _, _ => none

/-- What is made of the bytes of a handshake. -/
def identify (codec : WordCodec) (my_index : ℕ) (results : List (Option ℕ)) (left stream : ℕ)
    (buffer : List UInt8) : AwaitTask :=
  match codec.decode buffer with
  | none => .panicked
  | some (magic, buffer) =>
    if magic ≠ HANDSHAKE_MAGIC then .returned_error
    else
      match codec.decode buffer with
      | none => .panicked
      | some (identifier, _) =>
        if my_index + 1 ≤ identifier.toNat ∧ identifier.toNat - my_index - 1 < results.length then
          .accepting (results.set (identifier.toNat - my_index - 1) (some stream)) left
        else .panicked

/-- The bytes of a handshake are read when they all have arrived. -/
def read (codec : WordCodec) (my_index : ℕ) (sockets : Sockets) : Option Sockets :=
  match sockets.awaiting my_index with
  | .reading results left stream =>
    (sockets.streams[stream]?).bind fun socket =>
      if 16 ≤ socket.bytes.length then
        some
          { sockets with
            streams := sockets.streams.set stream { socket with bytes := socket.bytes.drop 16 }
            awaiting := Function.update sockets.awaiting my_index
              (identify codec my_index results left stream (socket.bytes.take 16)) }
      else none
  | _ => none

/-- What the threads do. -/
inductive Act where
  | connect
  | retry
  | write
  | bind
  | accept
  | read
  deriving DecidableEq

/-- One of the threads of a process takes a step; a process that is refused tries again. -/
def perform (codec : WordCodec) (processes : ℕ) (sockets : Sockets) (event : ℕ × Act) : Option Sockets :=
  if event.1 < processes then
    match event.2 with
    | .connect => sockets.connect codec event.1
    | .retry => some sockets
    | .write => sockets.write event.1
    | .bind => sockets.bind processes event.1
    | .accept => sockets.accept event.1
    | .read => sockets.read codec event.1
  else none

/-- The threads of all processes, in any order. -/
def Step (codec : WordCodec) (processes : ℕ) (sockets : Sockets) (event : ℕ × Act) (after : Sockets) : Prop :=
  sockets.perform codec processes event = some after

/-- What a process has when both its threads have returned: a socket to each other process. -/
def create_sockets (my_index : ℕ) (sockets : Sockets) : Option (List (Option ℕ)) :=
  match sockets.starting my_index, sockets.awaiting my_index with
  | .connecting results, .accepting to_extend 0 =>
    if results.length = my_index then some (results.map some ++ [none] ++ to_extend) else none
  | _, _ => none

end Sockets

/-! ### What the acts do -/

/-- The streams that a process has opened. -/
def StartTask.opened : StartTask → List ℕ
  | .connecting results => results
  | .sending results stream _ => results ++ [stream]

/-- What is still to be written on a stream. -/
def StartTask.unsent : StartTask → ℕ → List UInt8
  | .connecting _, _ => []
  | .sending _ stream unsent, other => if other = stream then unsent else []

def AwaitTask.results : AwaitTask → List (Option ℕ)
  | .accepting results _ => results
  | .reading results _ _ => results
  | _ => []

/-- The stream that a handshake is read from. -/
def AwaitTask.current : AwaitTask → List ℕ
  | .reading _ _ stream => [stream]
  | _ => []

namespace Sockets

/-- The streams whose handshake a process has not read. -/
def waiting (sockets : Sockets) (server : ℕ) : List ℕ :=
  (sockets.awaiting server).current ++ sockets.backlog server

section Cases

variable {codec : WordCodec} {processes my_index : ℕ} {sockets after : Sockets}

/-- A process has started a stream. -/
structure Connected (codec : WordCodec) (sockets after : Sockets) (client server : ℕ) : Prop where
  server_lt : server < client
  listens : listening (sockets.awaiting server) = true
  server_eq : (sockets.starting client).opened.length = server
  ready : sockets.starting client = .connecting (sockets.starting client).opened
  streams : after.streams = sockets.streams ++ [⟨client, server, []⟩]
  awaiting : after.awaiting = sockets.awaiting
  waiting : ∀ other, after.waiting other =
    sockets.waiting other ++ if other = server then [sockets.streams.length] else []
  started : after.starting client =
    .sending (sockets.starting client).opened sockets.streams.length (handshake codec client)
  opened : ∀ other, (after.starting other).opened =
    (sockets.starting other).opened ++ if other = client then [sockets.streams.length] else []
  others : ∀ other, other ≠ client → after.starting other = sockets.starting other
  unsent : ∀ other stream, stream < sockets.streams.length →
    (after.starting other).unsent stream = (sockets.starting other).unsent stream

theorem connected_of_connect (h : sockets.connect codec my_index = some after) :
    ∃ server, Connected codec sockets after my_index server := by
  unfold connect at h
  split at h
  case h_1 => cases h
  case h_2 results hstarting =>
    split at h
    case isFalse => cases h
    case isTrue hguard =>
      cases h
      have hopened : (sockets.starting my_index).opened = results := congrArg StartTask.opened hstarting
      refine ⟨results.length, hguard.1, hguard.2, congrArg List.length hopened, ?_, rfl, rfl,
        fun other => ?_, ?_, fun other => ?_, fun other hother => Function.update_of_ne hother _ _,
        fun other stream hlt => ?_⟩
      · rw [hopened]
        exact hstarting
      · unfold waiting
        by_cases hother : other = results.length
        · subst hother
          dsimp only
          rw [Function.update_self, if_pos rfl, List.append_assoc]
        · dsimp only
          rw [Function.update_of_ne hother, if_neg hother, List.append_nil]
      · rw [hopened]
        exact Function.update_self _ _ _
      · by_cases hother : other = my_index
        · subst hother
          dsimp only
          rw [Function.update_self, if_pos rfl, hopened]
          rfl
        · dsimp only
          rw [Function.update_of_ne hother, if_neg hother, List.append_nil]
      · by_cases hother : other = my_index
        · subst hother
          dsimp only
          rw [Function.update_self, hstarting]
          exact if_neg hlt.ne
        · dsimp only
          rw [Function.update_of_ne hother]

/-- A process has written one more byte on its last stream. -/
structure Written (sockets after : Sockets) (client stream : ℕ) (byte : UInt8) : Prop where
  last : (sockets.starting client).opened.getLast? = some stream
  started : ∃ results unsent, sockets.starting client = .sending results stream (byte :: unsent) ∧
    after.starting client = if unsent.isEmpty then .connecting (results ++ [stream])
      else .sending results stream unsent
  streams : after.streams = sockets.streams.modify stream fun socket =>
    { socket with bytes := socket.bytes ++ [byte] }
  awaiting : after.awaiting = sockets.awaiting
  waiting : after.waiting = sockets.waiting
  opened : ∀ other, (after.starting other).opened = (sockets.starting other).opened
  unsent : (sockets.starting client).unsent stream = byte :: (after.starting client).unsent stream
  unsent_ne : ∀ other stream', stream' ≠ stream →
    (after.starting other).unsent stream' = (sockets.starting other).unsent stream'
  others : ∀ other, other ≠ client → after.starting other = sockets.starting other
  sending : ∀ results stream', after.starting client ≠ .sending results stream' []

theorem written_of_write (h : sockets.write my_index = some after) :
    ∃ stream byte, Written sockets after my_index stream byte := by
  unfold write at h
  split at h
  case h_2 => cases h
  case h_1 results stream byte unsent hstarting =>
    cases h
    have hafter : ∀ {task : StartTask}, Function.update sockets.starting my_index task my_index = task :=
      Function.update_self _ _ _
    refine ⟨stream, byte, ?_, ⟨results, unsent, hstarting, hafter⟩, rfl, rfl, rfl, fun other => ?_, ?_,
      fun other stream' hne => ?_,
      fun other hother => Function.update_of_ne hother _ _, fun taken stream' hsending => ?_⟩
    · rw [hstarting]
      exact List.getLast?_concat
    · by_cases hother : other = my_index
      · subst hother
        dsimp only
        rw [hafter, hstarting]
        split <;> rfl
      · exact congrArg StartTask.opened (Function.update_of_ne hother _ _)
    · dsimp only
      rw [hafter, hstarting]
      refine (if_pos rfl).trans (congrArg (byte :: ·) ?_)
      split
      case isTrue hempty => exact List.isEmpty_iff.mp hempty
      case isFalse => exact (if_pos rfl).symm
    · by_cases hother : other = my_index
      · subst hother
        dsimp only
        rw [hafter, hstarting]
        split
        · exact (if_neg hne).symm
        · exact (if_neg hne).trans (if_neg hne).symm
      · exact congrArg (StartTask.unsent · stream') (Function.update_of_ne hother _ _)
    · dsimp only at hsending
      rw [hafter] at hsending
      split at hsending
      case isTrue => cases hsending
      case isFalse hnonempty =>
        cases hsending
        exact hnonempty rfl

/-- The thread of a process that awaits connections has moved on; the streams that wait for it follow. -/
structure Awaited (sockets after : Sockets) (server : ℕ) (task : AwaitTask) (waits : List ℕ) : Prop where
  starting : after.starting = sockets.starting
  task_eq : after.awaiting server = task
  others : ∀ other, other ≠ server → after.awaiting other = sockets.awaiting other
  waiting : after.waiting server = waits
  waiting_ne : ∀ other, other ≠ server → after.waiting other = sockets.waiting other

theorem awaited_of_bind (h : sockets.bind processes my_index = some after) :
    sockets.awaiting my_index = .binding ∧ after.streams = sockets.streams ∧
      Awaited sockets after my_index
        (.accepting (List.replicate (processes - my_index - 1) none) (processes - my_index - 1))
        (sockets.waiting my_index) := by
  unfold bind at h
  split at h
  case h_2 => cases h
  case h_1 hbinding =>
    cases h
    refine ⟨hbinding, rfl, rfl, Function.update_self _ _ _, fun other hother => Function.update_of_ne hother _ _,
      ?_, fun other hother => ?_⟩
    · unfold waiting
      dsimp only
      rw [Function.update_self, hbinding]
      rfl
    · unfold waiting
      dsimp only
      rw [Function.update_of_ne hother]

theorem awaited_of_accept (h : sockets.accept my_index = some after) :
    ∃ results left stream, sockets.awaiting my_index = .accepting results (left + 1) ∧
      after.streams = sockets.streams ∧ Awaited sockets after my_index (.reading results left stream)
        (sockets.waiting my_index) := by
  unfold accept at h
  split at h
  case h_2 => cases h
  case h_1 results left stream rest haccepting hbacklog =>
    cases h
    refine ⟨results, left, stream, haccepting, rfl, rfl, Function.update_self _ _ _,
      fun other hother => Function.update_of_ne hother _ _, ?_, fun other hother => ?_⟩
    · unfold waiting
      dsimp only
      rw [Function.update_self, Function.update_self, haccepting, hbacklog]
      rfl
    · unfold waiting
      dsimp only
      rw [Function.update_of_ne hother, Function.update_of_ne hother]

theorem awaited_of_read (h : sockets.read codec my_index = some after) :
    ∃ results left stream socket, sockets.awaiting my_index = .reading results left stream ∧
      sockets.streams[stream]? = some socket ∧ 16 ≤ socket.bytes.length ∧
      after.streams = sockets.streams.set stream { socket with bytes := socket.bytes.drop 16 } ∧
      sockets.waiting my_index = stream :: after.waiting my_index ∧
      Awaited sockets after my_index (identify codec my_index results left stream (socket.bytes.take 16))
        (after.waiting my_index) := by
  unfold read at h
  split at h
  case h_2 => cases h
  case h_1 results left stream hreading =>
    obtain ⟨socket, hsocket, h⟩ := Option.bind_eq_some_iff.mp h
    split at h
    case isFalse => cases h
    case isTrue hlength =>
      cases h
      refine ⟨results, left, stream, socket, hreading, hsocket, hlength, rfl, ?_, rfl,
        Function.update_self _ _ _, fun other hother => Function.update_of_ne hother _ _, rfl,
        fun other hother => ?_⟩
      · have hidle : (identify codec my_index results left stream (socket.bytes.take 16)).current = [] := by
          unfold identify
          split
          · rfl
          · split
            · rfl
            · split
              · rfl
              · split <;> rfl
        unfold waiting
        dsimp only
        rw [Function.update_self, hidle, hreading]
        rfl
      · unfold waiting
        dsimp only
        rw [Function.update_of_ne hother]

end Cases

end Sockets

/-! ### The invariant -/

/-- A thread that awaits as many connections as its results lack. -/
inductive AwaitTask.Serving (size : ℕ) : AwaitTask → Prop
  | binding : Serving size .binding
  | accepting {results : List (Option ℕ)} {left : ℕ} : results.length = size →
      results.count none = left → Serving size (.accepting results left)
  | reading {results : List (Option ℕ)} {left stream : ℕ} : results.length = size →
      results.count none = left + 1 → Serving size (.reading results left stream)

namespace Sockets

/-- A stream that a process has opened to another one, and what it has still to read and to write of the
    handshake. -/
structure Fresh (codec : WordCodec) (sockets : Sockets) (server stream : ℕ) (socket : TcpStream) :
    Prop where
  stream_eq : sockets.streams[stream]? = some socket
  server_eq : socket.server = server
  bytes : socket.bytes ++ (sockets.starting socket.client).unsent stream = handshake codec socket.client
  lacks : (sockets.awaiting server).results[socket.client - server - 1]? = some none

/-- Each process has opened one stream to each of the first processes before it, and each stream waits for
    its process, with the bytes of its handshake, or has been stored there, with its handshake read. -/
structure Inv (codec : WordCodec) (processes : ℕ) (sockets : Sockets) : Prop where
  opened : ∀ client server stream : ℕ, (sockets.starting client).opened[server]? = some stream →
    ∃ bytes, sockets.streams[stream]? = some ⟨client, server, bytes⟩
  owned : ∀ (stream : ℕ) (socket : TcpStream), sockets.streams[stream]? = some socket → socket.client < processes ∧
    socket.server < socket.client ∧ (sockets.starting socket.client).opened[socket.server]? = some stream
  unsent : ∀ client results stream, sockets.starting client ≠ .sending results stream []
  serving : ∀ server, (sockets.awaiting server).Serving (processes - server - 1)
  bound : ∀ (stream : ℕ) (socket : TcpStream), sockets.streams[stream]? = some socket →
    sockets.awaiting socket.server ≠ .binding
  fresh : ∀ server, ∀ stream ∈ sockets.waiting server, ∃ socket, Fresh codec sockets server stream socket
  nodup : ∀ server, (sockets.waiting server).Nodup
  stored : ∀ server slot stream : ℕ, (sockets.awaiting server).results[slot]? = some (some stream) →
    sockets.streams[stream]? = some ⟨server + 1 + slot, server, []⟩ ∧
      (sockets.starting (server + 1 + slot)).unsent stream = []
  placed : ∀ (stream : ℕ) (socket : TcpStream), sockets.streams[stream]? = some socket →
    stream ∈ sockets.waiting socket.server ∨ (sockets.awaiting socket.server).results[
      socket.client - socket.server - 1]? = some (some stream)

variable {codec : WordCodec} {processes my_index : ℕ} {sockets after : Sockets}

theorem length_handshake (hcodec : codec.Lawful) : (handshake codec my_index).length = 16 := by
  rw [handshake, List.length_append, hcodec.length_encode, hcodec.length_encode]

theorem inv_start : Inv codec processes start where
  opened _ _ _ h := by cases h
  owned _ _ h := by cases h
  unsent _ _ _ h := by cases h
  serving _ := .binding
  bound _ _ h := by cases h
  fresh _ _ h := absurd h List.not_mem_nil
  nodup _ := List.nodup_nil
  stored _ _ _ h := by cases h
  placed _ _ h := by cases h

/-- A stream is determined by the processes that it joins. -/
theorem Inv.eq_of_ends (h : Inv codec processes sockets) {stream other : ℕ} {socket found : TcpStream}
    (hstream : sockets.streams[stream]? = some socket) (hother : sockets.streams[other]? = some found)
    (hclient : found.client = socket.client) (hserver : found.server = socket.server) : other = stream := by
  obtain ⟨-, -, hopened⟩ := h.owned stream socket hstream
  obtain ⟨-, -, hopened'⟩ := h.owned other found hother
  rw [hclient, hserver, hopened] at hopened'
  exact (Option.some.inj hopened').symm

theorem getElem?_concat_iff {α : Type*} {items : List α} {item other : α} {index : ℕ} :
    (items ++ [item])[index]? = some other ↔
      items[index]? = some other ∨ index = items.length ∧ item = other := by
  rw [List.getElem?_append]
  split
  case isTrue hlt =>
    refine ⟨Or.inl, fun h => h.resolve_right fun hlast => ?_⟩
    exact absurd hlast.1 hlt.ne
  case isFalse hge =>
    have hnone : items[index]? = none := List.getElem?_eq_none (Nat.le_of_not_lt hge)
    rw [hnone]
    constructor
    · intro h
      obtain ⟨hlt, rfl⟩ := List.getElem?_eq_some_iff.mp h
      rw [List.length_singleton] at hlt
      refine Or.inr ⟨by omega, ?_⟩
      rw [List.getElem_singleton]
    · rintro (h | ⟨rfl, rfl⟩)
      · cases h
      · rw [Nat.sub_self]
        rfl

theorem Inv.stream_lt (h : Inv codec processes sockets) {server stream : ℕ}
    (hwaiting : stream ∈ sockets.waiting server) : stream < sockets.streams.length := by
  obtain ⟨socket, hfresh⟩ := h.fresh server stream hwaiting
  exact (List.getElem?_eq_some_iff.mp hfresh.stream_eq).1

/-- A server that listens has made room for its clients, and stores only their streams. -/
theorem Inv.lacks (h : Inv codec processes sockets) {client server : ℕ} (hclient : client < processes)
    (hserver : server < client) (hbound : sockets.awaiting server ≠ .binding)
    (hnone : (sockets.starting client).opened[server]? = none) :
    (sockets.awaiting server).results[client - server - 1]? = some none := by
  have hlength : (sockets.awaiting server).results.length = processes - server - 1 := by
    have hserving := h.serving server
    generalize sockets.awaiting server = task at hserving hbound ⊢
    cases hserving with
    | binding => exact absurd rfl hbound
    | accepting hlength _ => exact hlength
    | reading hlength _ => exact hlength
  have hlt : client - server - 1 < (sockets.awaiting server).results.length := by omega
  cases hentry : (sockets.awaiting server).results[client - server - 1]? with
  | none => exact absurd (List.getElem?_eq_none_iff.mp hentry) (not_le_of_gt hlt)
  | some entry =>
    cases entry with
    | none => rfl
    | some stream =>
      obtain ⟨hstream, -⟩ := h.stored server _ stream hentry
      have hsame : server + 1 + (client - server - 1) = client := by omega
      rw [hsame] at hstream
      have hopened := (h.owned stream _ hstream).2.2
      rw [hnone] at hopened
      cases hopened

theorem Inv.connect (hcodec : codec.Lawful) (h : Inv codec processes sockets) (hindex : my_index < processes)
    {server : ℕ} (hconnected : Connected codec sockets after my_index server) :
    Inv codec processes after := by
  have hbound : sockets.awaiting server ≠ .binding := by
    intro hbinding
    have hlistens := hconnected.listens
    rw [hbinding] at hlistens
    cases hlistens
  have hlacks := h.lacks hindex hconnected.server_lt hbound
    (List.getElem?_eq_none (le_of_eq hconnected.server_eq))
  have hstreams : ∀ {stream : ℕ} {socket : TcpStream}, after.streams[stream]? = some socket ↔
      sockets.streams[stream]? = some socket ∨
        stream = sockets.streams.length ∧ ⟨my_index, server, []⟩ = socket := by
    rw [hconnected.streams]
    exact getElem?_concat_iff
  have hkept : ∀ {stream : ℕ} {socket : TcpStream}, sockets.streams[stream]? = some socket →
      after.streams[stream]? = some socket := fun hstream => hstreams.mpr (Or.inl hstream)
  have hnew : after.streams[sockets.streams.length]? = some ⟨my_index, server, []⟩ :=
    hstreams.mpr (Or.inr ⟨rfl, rfl⟩)
  constructor
  case opened =>
    intro client other stream hstream
    rw [hconnected.opened] at hstream
    by_cases hclient : client = my_index
    · subst hclient
      rw [if_pos rfl, getElem?_concat_iff] at hstream
      rcases hstream with hold | ⟨rfl, rfl⟩
      · obtain ⟨bytes, hbytes⟩ := h.opened client other stream hold
        exact ⟨bytes, hkept hbytes⟩
      · rw [hconnected.server_eq]
        exact ⟨[], hnew⟩
    · rw [if_neg hclient, List.append_nil] at hstream
      obtain ⟨bytes, hbytes⟩ := h.opened client other stream hstream
      exact ⟨bytes, hkept hbytes⟩
  case owned =>
    intro stream socket hstream
    rw [hconnected.opened]
    rcases hstreams.mp hstream with hold | ⟨rfl, rfl⟩
    · obtain ⟨hclient, hserver, howned⟩ := h.owned stream socket hold
      refine ⟨hclient, hserver, ?_⟩
      rw [List.getElem?_append_left (List.getElem?_eq_some_iff.mp howned).1]
      exact howned
    · refine ⟨hindex, hconnected.server_lt, ?_⟩
      rw [if_pos rfl, getElem?_concat_iff]
      exact Or.inr ⟨hconnected.server_eq.symm, rfl⟩
  case unsent =>
    intro client results stream hsending
    by_cases hclient : client = my_index
    · subst hclient
      rw [hconnected.started] at hsending
      obtain ⟨-, -, hnil⟩ := StartTask.sending.inj hsending
      have hlength : (handshake codec client).length = 16 := length_handshake hcodec
      rw [hnil] at hlength
      cases hlength
    · rw [hconnected.others client hclient] at hsending
      exact h.unsent client results stream hsending
  case serving =>
    rw [hconnected.awaiting]
    exact h.serving
  case bound =>
    intro stream socket hstream
    rw [hconnected.awaiting]
    rcases hstreams.mp hstream with hold | ⟨rfl, rfl⟩
    · exact h.bound stream socket hold
    · exact hbound
  case fresh =>
    intro other stream hmem
    rw [hconnected.waiting] at hmem
    rcases List.mem_append.mp hmem with hold | hnew'
    · obtain ⟨socket, hfresh⟩ := h.fresh other stream hold
      refine ⟨socket, hkept hfresh.stream_eq, hfresh.server_eq, ?_, hconnected.awaiting ▸ hfresh.lacks⟩
      rw [hconnected.unsent _ _ (h.stream_lt hold)]
      exact hfresh.bytes
    · split at hnew'
      case isFalse => cases hnew'
      case isTrue hserver =>
        obtain rfl := List.mem_singleton.mp hnew'
        subst hserver
        refine ⟨_, hnew, rfl, ?_, hconnected.awaiting ▸ hlacks⟩
        dsimp only
        rw [hconnected.started]
        exact if_pos rfl
  case nodup =>
    intro other
    rw [hconnected.waiting]
    split
    · refine List.nodup_append.mpr ⟨h.nodup other, List.nodup_singleton _, ?_⟩
      intro stream hstream last hlast
      rw [List.mem_singleton.mp hlast]
      exact (h.stream_lt hstream).ne
    · rw [List.append_nil]
      exact h.nodup other
  case stored =>
    intro other slot stream hstored
    rw [hconnected.awaiting] at hstored
    obtain ⟨hstream, hnothing⟩ := h.stored other slot stream hstored
    refine ⟨hkept hstream, ?_⟩
    rw [hconnected.unsent _ _ (List.getElem?_eq_some_iff.mp hstream).1]
    exact hnothing
  case placed =>
    intro stream socket hstream
    rw [hconnected.waiting, hconnected.awaiting]
    rcases hstreams.mp hstream with hold | ⟨rfl, rfl⟩
    · exact (h.placed stream socket hold).imp_left (List.mem_append_left _)
    · left
      rw [if_pos rfl]
      exact List.mem_append_right _ (List.mem_singleton_self _)

theorem Inv.write (h : Inv codec processes sockets) {stream : ℕ} {byte : UInt8}
    (hwritten : Written sockets after my_index stream byte) : Inv codec processes after := by
  obtain ⟨server, written, hstream⟩ : ∃ server written,
      sockets.streams[stream]? = some ⟨my_index, server, written⟩ := by
    have hlast := hwritten.last
    rw [List.getLast?_eq_getElem?] at hlast
    exact ⟨_, h.opened my_index _ stream hlast⟩
  -- only the stream that is written on changes
  have hsame : ∀ {other : ℕ}, other ≠ stream → after.streams[other]? = sockets.streams[other]? := by
    intro other hother
    rw [hwritten.streams, List.getElem?_modify_ne _ _ (Ne.symm hother)]
  have hwrote : after.streams[stream]? = some ⟨my_index, server, written ++ [byte]⟩ := by
    rw [hwritten.streams, List.getElem?_modify_eq, hstream]
    rfl
  have hends : ∀ {other : ℕ} {socket : TcpStream}, after.streams[other]? = some socket →
      ∃ bytes, sockets.streams[other]? = some ⟨socket.client, socket.server, bytes⟩ := by
    intro other socket hsocket
    by_cases hother : other = stream
    · subst hother
      rw [hwrote] at hsocket
      cases hsocket
      exact ⟨written, hstream⟩
    · rw [hsame hother] at hsocket
      exact ⟨socket.bytes, hsocket⟩
  constructor
  case opened =>
    intro client other stream' hother
    rw [hwritten.opened] at hother
    obtain ⟨bytes, hbytes⟩ := h.opened client other stream' hother
    by_cases hsame' : stream' = stream
    · subst hsame'
      rw [hstream] at hbytes
      cases hbytes
      exact ⟨_, hwrote⟩
    · exact ⟨bytes, (hsame hsame').trans hbytes⟩
  case owned =>
    intro other socket hsocket
    obtain ⟨bytes, hbytes⟩ := hends hsocket
    have howned := h.owned other _ hbytes
    rw [hwritten.opened]
    exact howned
  case unsent =>
    intro client results stream' hsending
    by_cases hclient : client = my_index
    · subst hclient
      exact hwritten.sending results stream' hsending
    · rw [hwritten.others client hclient] at hsending
      exact h.unsent client results stream' hsending
  case serving =>
    rw [hwritten.awaiting]
    exact h.serving
  case bound =>
    intro other socket hsocket
    obtain ⟨bytes, hbytes⟩ := hends hsocket
    have hbound := h.bound other _ hbytes
    rw [hwritten.awaiting]
    exact hbound
  case fresh =>
    intro other stream' hmem
    rw [hwritten.waiting] at hmem
    obtain ⟨socket, hfresh⟩ := h.fresh other stream' hmem
    by_cases hsame' : stream' = stream
    · subst hsame'
      have hsocket := hfresh.stream_eq
      rw [hstream] at hsocket
      cases hsocket
      refine ⟨_, hwrote, hfresh.server_eq, ?_, hwritten.awaiting ▸ hfresh.lacks⟩
      have hbytes := hfresh.bytes
      dsimp only at hbytes ⊢
      rw [hwritten.unsent] at hbytes
      rw [← hbytes, List.append_assoc]
      rfl
    · refine ⟨socket, (hsame hsame').trans hfresh.stream_eq, hfresh.server_eq, ?_,
        hwritten.awaiting ▸ hfresh.lacks⟩
      rw [hwritten.unsent_ne _ _ hsame']
      exact hfresh.bytes
  case nodup =>
    rw [hwritten.waiting]
    exact h.nodup
  case stored =>
    intro other slot stream' hstored
    rw [hwritten.awaiting] at hstored
    obtain ⟨hstream', hnothing⟩ := h.stored other slot stream' hstored
    have hother : stream' ≠ stream := by
      rintro rfl
      rw [hstream] at hstream'
      obtain ⟨hclient, -⟩ := TcpStream.mk.inj (Option.some.inj hstream')
      rw [← hclient, hwritten.unsent] at hnothing
      cases hnothing
    refine ⟨(hsame hother).trans hstream', ?_⟩
    rw [hwritten.unsent_ne _ _ hother]
    exact hnothing
  case placed =>
    intro other socket hsocket
    obtain ⟨bytes, hbytes⟩ := hends hsocket
    have hplaced := h.placed other _ hbytes
    rw [hwritten.waiting, hwritten.awaiting]
    exact hplaced

/-- The thread of a process that awaits connections has moved on without reading. -/
theorem Inv.awaited (h : Inv codec processes sockets) {server : ℕ} {task : AwaitTask}
    (hawaited : Awaited sockets after server task (sockets.waiting server))
    (hstreams : after.streams = sockets.streams) (hserving : task.Serving (processes - server - 1))
    (hbound : task ≠ .binding)
    (hresults : task.results = (sockets.awaiting server).results ∨
      sockets.awaiting server = .binding ∧ ∀ entry ∈ task.results, entry = none) :
    Inv codec processes after := by
  have hwaiting : after.waiting = sockets.waiting := by
    funext other
    by_cases hother : other = server
    · subst hother
      exact hawaited.waiting
    · exact hawaited.waiting_ne other hother
  -- where a stream is, the results are as before
  have hkept : ∀ {stream : ℕ} {socket : TcpStream}, sockets.streams[stream]? = some socket →
      (after.awaiting socket.server).results = (sockets.awaiting socket.server).results := by
    intro stream socket hstream
    by_cases hserver : socket.server = server
    · rw [hserver, hawaited.task_eq]
      exact hresults.resolve_right fun hbinding => h.bound stream socket hstream (hserver ▸ hbinding.1)
    · rw [hawaited.others _ hserver]
  constructor
  case opened =>
    rw [hawaited.starting, hstreams]
    exact h.opened
  case owned =>
    rw [hawaited.starting, hstreams]
    exact h.owned
  case unsent =>
    rw [hawaited.starting]
    exact h.unsent
  case serving =>
    intro other
    by_cases hother : other = server
    · subst hother
      rw [hawaited.task_eq]
      exact hserving
    · rw [hawaited.others other hother]
      exact h.serving other
  case bound =>
    intro stream socket hstream
    rw [hstreams] at hstream
    by_cases hserver : socket.server = server
    · rw [hserver, hawaited.task_eq]
      exact hbound
    · rw [hawaited.others _ hserver]
      exact h.bound stream socket hstream
  case fresh =>
    intro other stream hmem
    rw [hwaiting] at hmem
    obtain ⟨socket, hfresh⟩ := h.fresh other stream hmem
    refine ⟨socket, hstreams ▸ hfresh.stream_eq, hfresh.server_eq, ?_, ?_⟩
    · rw [hawaited.starting]
      exact hfresh.bytes
    · have hlacks := hfresh.lacks
      rw [← hfresh.server_eq] at hlacks ⊢
      rw [hkept hfresh.stream_eq]
      exact hlacks
  case nodup =>
    rw [hwaiting]
    exact h.nodup
  case stored =>
    intro other slot stream hstored
    rw [hstreams, hawaited.starting]
    by_cases hother : other = server
    · subst hother
      rw [hawaited.task_eq] at hstored
      rcases hresults with hsame | ⟨-, hnone⟩
      · rw [hsame] at hstored
        exact h.stored other slot stream hstored
      · cases hnone _ (List.mem_of_getElem? hstored)
    · rw [hawaited.others other hother] at hstored
      exact h.stored other slot stream hstored
  case placed =>
    intro stream socket hstream
    rw [hstreams] at hstream
    rw [hwaiting, hkept hstream]
    exact h.placed stream socket hstream

/-- A whole handshake tells the process that has sent it. -/
theorem identify_handshake (hcodec : codec.Lawful) {client server left stream : ℕ}
    {results : List (Option ℕ)} (hclient : client < 2 ^ 64) (hserver : server < client)
    (hslot : client - server - 1 < results.length) :
    identify codec server results left stream (handshake codec client) =
      .accepting (results.set (client - server - 1) (some stream)) left := by
  have hmagic : codec.decode (handshake codec client) =
      some (HANDSHAKE_MAGIC, codec.encode (UInt64.ofNat client)) := hcodec.decode_encode _ _
  have hindex : codec.decode (codec.encode (UInt64.ofNat client)) = some (UInt64.ofNat client, []) := by
    have hdecode := hcodec.decode_encode (UInt64.ofNat client) []
    rwa [List.append_nil] at hdecode
  have hword : (UInt64.ofNat client).toNat = client := UInt64.toNat_ofNat_of_lt hclient
  unfold identify
  rw [hmagic]
  dsimp only
  rw [if_neg (not_not_intro rfl), hindex]
  dsimp only
  rw [hword, if_pos ⟨hserver, hslot⟩]

/-- A process has read the handshake of a stream, and has stored the stream. -/
structure Stored (codec : WordCodec) (sockets after : Sockets) (client server stream left : ℕ)
    (results : List (Option ℕ)) : Prop where
  reading : sockets.awaiting server = .reading results left stream
  waiting : sockets.waiting server = stream :: after.waiting server
  stream_eq : sockets.streams[stream]? = some ⟨client, server, handshake codec client⟩
  unsent : (sockets.starting client).unsent stream = []
  server_lt : server < client
  lacks : results[client - server - 1]? = some none
  streams : after.streams = sockets.streams.set stream ⟨client, server, []⟩
  awaited : Awaited sockets after server
    (.accepting (results.set (client - server - 1) (some stream)) left) (after.waiting server)

/-- What is read is the handshake of the process that has started the stream. -/
theorem Inv.stored_of_read (hcodec : codec.Lawful) (hprocesses : processes ≤ 2 ^ 64)
    (h : Inv codec processes sockets) (hread : sockets.read codec my_index = some after) :
    ∃ client stream left results, Stored codec sockets after client my_index stream left results := by
  obtain ⟨results, left, stream, ⟨client, server, bytes⟩, hreading, hstream, hlength, hstreams, hwaiting,
    hawaited⟩ := awaited_of_read hread
  obtain ⟨found, hfresh⟩ := h.fresh my_index stream (hwaiting ▸ List.mem_cons_self)
  obtain rfl : found = ⟨client, server, bytes⟩ := Option.some.inj (hfresh.stream_eq.symm.trans hstream)
  obtain rfl : server = my_index := hfresh.server_eq
  obtain ⟨hclient, hserver, -⟩ := h.owned stream _ hstream
  have hlacks := hfresh.lacks
  rw [hreading] at hlacks
  change results[client - server - 1]? = some none at hlacks
  have hbytes := hfresh.bytes
  dsimp only at hlength hstreams hawaited hclient hserver hbytes
  -- sixteen bytes are all of them
  have htotal := congrArg List.length hbytes
  rw [List.length_append, length_handshake hcodec] at htotal
  have hunsent : (sockets.starting client).unsent stream = [] := List.eq_nil_of_length_eq_zero (by omega)
  rw [hunsent, List.append_nil] at hbytes
  rw [hbytes] at hstream hstreams hawaited
  rw [List.drop_of_length_le (length_handshake hcodec).le] at hstreams
  rw [List.take_of_length_le (length_handshake hcodec).le,
    identify_handshake hcodec (by omega) hserver (List.getElem?_eq_some_iff.mp hlacks).1] at hawaited
  exact ⟨client, stream, left, results, hreading, hwaiting, hstream, hunsent, hserver, hlacks, hstreams,
    hawaited⟩

theorem Inv.store {client server stream left : ℕ} {results : List (Option ℕ)}
    (h : Inv codec processes sockets)
    (hstored : Stored codec sockets after client server stream left results) :
    Inv codec processes after := by
  obtain ⟨hlt, hnone⟩ := List.getElem?_eq_some_iff.mp hstored.lacks
  have hresults : (after.awaiting server).results = results.set (client - server - 1) (some stream) :=
    congrArg AwaitTask.results hstored.awaited.task_eq
  have hbefore : (sockets.awaiting server).results = results := congrArg AwaitTask.results hstored.reading
  have hself : after.streams[stream]? = some ⟨client, server, []⟩ := by
    rw [hstored.streams]
    exact List.getElem?_set_self (List.getElem?_eq_some_iff.mp hstored.stream_eq).1
  have hsame : ∀ {other : ℕ}, other ≠ stream → after.streams[other]? = sockets.streams[other]? := by
    intro other hother
    rw [hstored.streams, List.getElem?_set_ne (Ne.symm hother)]
  have hends : ∀ {other : ℕ} {socket : TcpStream}, after.streams[other]? = some socket →
      ∃ bytes, sockets.streams[other]? = some ⟨socket.client, socket.server, bytes⟩ := by
    intro other socket hsocket
    by_cases hother : other = stream
    · subst hother
      rw [hself] at hsocket
      cases hsocket
      exact ⟨_, hstored.stream_eq⟩
    · rw [hsame hother] at hsocket
      exact ⟨socket.bytes, hsocket⟩
  have hmem : ∀ {other stream' : ℕ}, stream' ∈ after.waiting other →
      stream' ∈ sockets.waiting other ∧ stream' ≠ stream := by
    intro other stream' hmem
    by_cases hother : other = server
    · subst hother
      have hnodup := h.nodup other
      rw [hstored.waiting, List.nodup_cons] at hnodup
      exact ⟨hstored.waiting ▸ List.mem_cons_of_mem _ hmem, fun heq => hnodup.1 (heq ▸ hmem)⟩
    · rw [hstored.awaited.waiting_ne other hother] at hmem
      refine ⟨hmem, fun heq => ?_⟩
      obtain ⟨found, hfound⟩ := h.fresh other stream' hmem
      have hfound' := hfound.stream_eq
      rw [heq, hstored.stream_eq] at hfound'
      cases hfound'
      exact hother hfound.server_eq.symm
  constructor
  case opened =>
    rw [hstored.awaited.starting]
    intro client' server' stream' hopened
    obtain ⟨bytes, hbytes⟩ := h.opened client' server' stream' hopened
    by_cases hother : stream' = stream
    · rw [hother, hstored.stream_eq] at hbytes
      cases hbytes
      exact ⟨[], hother ▸ hself⟩
    · exact ⟨bytes, (hsame hother).trans hbytes⟩
  case owned =>
    intro other socket hsocket
    obtain ⟨bytes, hbytes⟩ := hends hsocket
    have howned := h.owned other _ hbytes
    rw [hstored.awaited.starting]
    exact howned
  case unsent =>
    rw [hstored.awaited.starting]
    exact h.unsent
  case serving =>
    intro other
    by_cases hother : other = server
    · subst hother
      have hserving := h.serving other
      rw [hstored.reading] at hserving
      rw [hstored.awaited.task_eq]
      cases hserving with
      | reading hlength hcount =>
        refine .accepting ((List.length_set).trans hlength) ?_
        rw [List.count_set hlt, hnone, hcount]
        rfl
    · rw [hstored.awaited.others other hother]
      exact h.serving other
  case bound =>
    intro other socket hsocket
    obtain ⟨bytes, hbytes⟩ := hends hsocket
    by_cases hserver : socket.server = server
    · rw [hserver, hstored.awaited.task_eq]
      exact fun heq => nomatch heq
    · rw [hstored.awaited.others _ hserver]
      have hbound := h.bound other _ hbytes
      exact hbound
  case fresh =>
    intro other stream' hwaits
    obtain ⟨hold, hother⟩ := hmem hwaits
    obtain ⟨socket, hfresh⟩ := h.fresh other stream' hold
    refine ⟨socket, (hsame hother).trans hfresh.stream_eq, hfresh.server_eq, ?_, ?_⟩
    · rw [hstored.awaited.starting]
      exact hfresh.bytes
    · have hlacks := hfresh.lacks
      by_cases hserver : other = server
      · subst hserver
        -- two streams from one process would be the same
        have hclient : socket.client ≠ client := fun hclient =>
          hother (h.eq_of_ends hstored.stream_eq hfresh.stream_eq hclient hfresh.server_eq)
        have hlower := (h.owned stream' socket hfresh.stream_eq).2.1
        rw [hfresh.server_eq] at hlower
        have hlt' := hstored.server_lt
        rw [hbefore] at hlacks
        rw [hresults, List.getElem?_set_ne (by omega)]
        exact hlacks
      · rw [hstored.awaited.others other hserver]
        exact hlacks
  case nodup =>
    intro other
    by_cases hother : other = server
    · subst hother
      have hnodup := h.nodup other
      rw [hstored.waiting] at hnodup
      exact hnodup.of_cons
    · rw [hstored.awaited.waiting_ne other hother]
      exact h.nodup other
  case stored =>
    intro other slot stream' hslot
    rw [hstored.awaited.starting]
    have hkept : ∀ {client' server' : ℕ}, sockets.streams[stream']? = some ⟨client', server', []⟩ →
        after.streams[stream']? = some ⟨client', server', []⟩ := by
      intro client' server' hstream'
      by_cases hother : stream' = stream
      · rw [hother, hstored.stream_eq] at hstream'
        obtain ⟨rfl, rfl, -⟩ := TcpStream.mk.inj (Option.some.inj hstream')
        exact hother ▸ hself
      · exact (hsame hother).trans hstream'
    by_cases hother : other = server
    · subst hother
      rw [hresults] at hslot
      by_cases hnew : slot = client - other - 1
      · subst hnew
        rw [List.getElem?_set_self hlt] at hslot
        obtain rfl := Option.some.inj (Option.some.inj hslot)
        have hlower := hstored.server_lt
        have hclient : other + 1 + (client - other - 1) = client := by omega
        rw [hclient]
        exact ⟨hself, hstored.unsent⟩
      · rw [List.getElem?_set_ne (Ne.symm hnew), ← hbefore] at hslot
        obtain ⟨hstream', hnothing⟩ := h.stored other slot stream' hslot
        exact ⟨hkept hstream', hnothing⟩
    · rw [hstored.awaited.others other hother] at hslot
      obtain ⟨hstream', hnothing⟩ := h.stored other slot stream' hslot
      exact ⟨hkept hstream', hnothing⟩
  case placed =>
    intro other socket hsocket
    by_cases hother : other = stream
    · subst hother
      rw [hself] at hsocket
      cases hsocket
      right
      dsimp only
      rw [hresults]
      exact List.getElem?_set_self hlt
    · rw [hsame hother] at hsocket
      by_cases hserver : socket.server = server
      · rcases h.placed other socket hsocket with hwaits | hslot
        · rw [hserver, hstored.waiting] at hwaits
          left
          rw [hserver]
          exact (List.mem_cons.mp hwaits).resolve_left hother
        · right
          rw [hserver, hbefore] at hslot
          rw [hserver, hresults, List.getElem?_set_ne]
          · exact hslot
          · intro heq
            rw [← heq, hstored.lacks] at hslot
            cases hslot
      · rw [hstored.awaited.waiting_ne _ hserver, hstored.awaited.others _ hserver]
        exact h.placed other socket hsocket

/-- Each act keeps the invariant. -/
theorem Inv.step (hcodec : codec.Lawful) (hprocesses : processes ≤ 2 ^ 64) (h : Inv codec processes sockets)
    {event : ℕ × Act} (hstep : Step codec processes sockets event after) : Inv codec processes after := by
  obtain ⟨my_index, act⟩ := event
  unfold Step perform at hstep
  split at hstep
  case isFalse => cases hstep
  case isTrue hindex =>
    dsimp only at hindex hstep
    cases act with
    | connect =>
      obtain ⟨server, hconnected⟩ := connected_of_connect hstep
      exact h.connect hcodec hindex hconnected
    | retry =>
      cases hstep
      exact h
    | write =>
      obtain ⟨stream, byte, hwritten⟩ := written_of_write hstep
      exact h.write hwritten
    | bind =>
      obtain ⟨hbinding, hstreams, hawaited⟩ := awaited_of_bind hstep
      refine h.awaited hawaited hstreams (.accepting List.length_replicate List.count_replicate_self)
        (fun heq => nomatch heq) (Or.inr ⟨hbinding, fun entry hentry => (List.mem_replicate.mp hentry).2⟩)
    | accept =>
      obtain ⟨results, left, stream, haccepting, hstreams, hawaited⟩ := awaited_of_accept hstep
      have hserving := h.serving my_index
      rw [haccepting] at hserving
      cases hserving with
      | accepting hlength hcount =>
        refine h.awaited hawaited hstreams (.reading hlength hcount) (fun heq => nomatch heq) (Or.inl ?_)
        rw [haccepting]
        rfl
    | read =>
      obtain ⟨client, stream, left, results, hstored⟩ := h.stored_of_read hcodec hprocesses hstep
      exact h.store hstored

theorem Inv.of_run (hcodec : codec.Lawful) (hprocesses : processes ≤ 2 ^ 64) {events : List (ℕ × Act)}
    (hrun : Run (Step codec processes) start events sockets) : Inv codec processes sockets :=
  hrun.invariant (P := fun _ last => Inv codec processes last) inv_start
    fun hbefore hstep => hbefore.step hcodec hprocesses hstep

end Sockets

end Timely.Network
