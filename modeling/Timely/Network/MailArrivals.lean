/-
  Timely/Network/MailArrivals.lean
  ================================
  **Reading, handing over and receiving move messages.**

  A turn of the receive loop always has a result, and moves the messages which it
  finds to be complete, each to where it is staged for its target.
-/
import Timely.Network.MailSteps

set_option linter.unusedSectionVars false

namespace Timely.Network

open Library Transport

variable {codec : Codec} {cluster : Cluster} {state : Transport} {mail : Mail} {history : History}

/-! ### A turn of the receive loop -/

/-- However many bytes are read, whole messages are staged, and the rest is kept. -/
theorem Streams.recv {link : Link} {frames : List Frame} (h : Streams codec link frames)
    (hlawful : codec.Lawful) (hactive : link.active = true) {worker_offset threads : ℕ}
    (hrange : ∀ frame ∈ frames, RecvLoop.InRange worker_offset threads frame) (read : ℕ) :
    ∃ whole others valid active, frames = whole ++ others
      ∧ link.recv codec worker_offset threads read = some { link with
          wire := link.wire.drop read, valid, active
          stageds := RecvLoop.stage_all codec worker_offset link.stageds whole }
      ∧ ∀ stageds targets, Streams codec { link with
          wire := link.wire.drop read, valid, active, stageds, targets } others := by
  have hstream := h.bytes hactive
  have htail : (if link.closed then codec.encode final_header else []) = []
      ∨ (if link.closed then codec.encode final_header else []) = codec.encode final_header := by
    cases link.closed with
    | false => exact Or.inl rfl
    | true => exact Or.inr rfl
  rw [← List.take_append_drop read link.wire, ← List.append_assoc] at hstream
  obtain ⟨whole, others, left, rfl, hvalid, hleft, hstop⟩ :=
    RecvLoop.exists_cut hlawful htail hstream
  have hwhole : ∀ frame ∈ whole, RecvLoop.InRange worker_offset threads frame :=
    fun frame hframe => hrange frame (List.mem_append_left _ hframe)
  rcases hstop with hnone | ⟨hfinal, htail', hdrop, rfl⟩
  · -- the rest is not yet a message
    refine ⟨whole, others, left, link.active, rfl, ?_, fun stageds targets => ?_⟩
    · rw [Link.recv, hvalid, RecvLoop.carve_stream hlawful hwhole, RecvLoop.carve_of_none hnone]
      rfl
    · refine ⟨fun _ => hleft, hnone, fun hdone => ?_⟩
      exact absurd (hactive.symm.trans hdone) Bool.true_eq_false.mp
  · -- the rest is the final header, and nothing follows
    have hclosed : link.closed = true := by
      by_contra hopen
      rw [if_neg hopen, hfinal] at htail'
      have hlength := hlawful.length_encode final_header
      rw [← htail'] at hlength
      cases hlength
    have hended : ((link.wire.drop read).isEmpty && link.closed) = true := by
      rw [hdrop, hclosed]
      rfl
    refine ⟨whole, [], [], false, rfl, ?_, fun stageds targets => ?_⟩
    · rw [Link.recv, hvalid, RecvLoop.carve_stream hlawful hwhole, hfinal,
        RecvLoop.carve_final hlawful hended]
      rfl
    · refine ⟨fun hgo => absurd hgo Bool.false_ne_true, RecvLoop.try_read_nil hlawful, fun _ => ?_⟩
      exact ⟨hclosed, rfl, hdrop⟩

section Receiving

variable {process slot index : ℕ}

theorem Represents.inRange (h : Represents codec cluster state mail history) :
    ∀ frame ∈ mail (.flowing (Cluster.socket process slot) process),
      RecvLoop.InRange (cluster.worker_offset process) cluster.threads frame :=
  fun _ hframe => Cluster.process_eq_iff.mp (h.process_target hframe)

/-- The receive loop does not panic: whatever it reads has a result. -/
theorem Represents.recv_isSome (h : Represents codec cluster state mail history)
    (hlawful : codec.Lawful)
    (hactive : (state.links (inbound process slot)).active = true) (bytes : ℕ) :
    ((state.links (inbound process slot)).recv codec (cluster.worker_offset process)
      cluster.threads bytes).isSome := by
  have hflowing : Streams codec (state.links (inbound process slot))
      (mail (.flowing (Cluster.socket process slot) process)) := h.holds (.flowing _ process)
  obtain ⟨_, _, _, _, -, hrecv, -⟩ := hflowing.recv hlawful hactive h.inRange bytes
  rw [hrecv]
  rfl

/-- With nothing on the wire, no message is on its way in a stream. -/
theorem Represents.flowing_eq_nil (h : Represents codec cluster state mail history)
    (hlawful : codec.Lawful) (hwire : (state.links (inbound process slot)).wire = []) :
    mail (.flowing (Cluster.socket process slot) process) = [] := by
  have hflowing : Streams codec (state.links (inbound process slot))
      (mail (.flowing (Cluster.socket process slot) process)) := h.holds (.flowing _ process)
  by_cases hactive : (state.links (inbound process slot)).active = true
  · have hstream := hflowing.bytes hactive
    have hpart := hflowing.part
    rw [hwire, List.append_nil] at hstream
    cases hframes : mail (.flowing (Cluster.socket process slot) process) with
    | nil => rfl
    | cons frame frames =>
      rw [hframes, Frame.stream_cons, List.append_assoc] at hstream
      rw [hstream, Frame.try_read_bytes hlawful] at hpart
      cases hpart
  · exact (hflowing.ended (Bool.eq_false_iff.mpr hactive)).2.1

/-- Nor does it read when the stream has ended. -/
theorem Represents.active_eq_false (h : Represents codec cluster state mail history)
    (hlawful : codec.Lawful)
    (hclosed : (state.links (inbound process slot)).closed = true)
    (hwire : (state.links (inbound process slot)).wire = []) :
    (state.links (inbound process slot)).active = false := by
  have hflowing : Streams codec (state.links (inbound process slot))
      (mail (.flowing (Cluster.socket process slot) process)) := h.holds (.flowing _ process)
  by_contra hgo
  have hstream := hflowing.bytes (by simpa using hgo)
  have hpart := hflowing.part
  rw [hwire, List.append_nil, h.flowing_eq_nil hlawful hwire, if_pos hclosed, Frame.stream_nil,
    List.nil_append] at hstream
  have hdecode := hlawful.decode_encode final_header []
  rw [List.append_nil, ← hstream] at hdecode
  rw [MessageHeader.try_read, hdecode] at hpart
  cases hpart

/-- The staging area of a worker, by its number within its process. -/
theorem sub_worker_offset {worker : ℕ} (h : cluster.process worker = process) :
    cluster.worker_offset process + (worker - cluster.worker_offset process) = worker := by
  have := (Cluster.process_eq_iff.mp h).1
  omega

theorem Represents.read (h : Represents codec cluster state mail history)
    (hlawful : codec.Lawful) {bytes : ℕ} {link' : Link}
    (hactive : (state.links (inbound process slot)).active = true)
    (hrecv : (state.links (inbound process slot)).recv codec (cluster.worker_offset process)
      cluster.threads bytes = some link') :
    ∃ mail', Represents codec cluster
      { state with links := Function.update state.links (inbound process slot) link' }
      mail' history := by
  have hflowing : Streams codec (state.links (inbound process slot))
      (mail (.flowing (Cluster.socket process slot) process)) := h.holds (.flowing _ process)
  obtain ⟨whole, others, valid, active, hsrc, hlink, hstreams⟩ :=
    hflowing.recv hlawful hactive h.inRange bytes
  obtain rfl := Option.some.inj (hrecv.symm.trans hlink)
  obtain ⟨hclosed', hstash', hsources'⟩ := h.set_link (inbound process slot)
    { state.links (inbound process slot) with
      wire := (state.links (inbound process slot)).wire.drop bytes, valid, active
      stageds := RecvLoop.stage_all codec (cluster.worker_offset process)
        (state.links (inbound process slot)).stageds whole }
    rfl rfl (h.stash (inbound process slot))
  refine ⟨_, h.move _ hsrc (by simp) ?_ h.sent h.pushers hclosed' hstash' ?_⟩
  · intro place
    have hplace := h.holds place
    cases place with
    | stashed process' remote =>
      rw [Cluster.move_other (by simp) (by simp [Cluster.next]), Holds, apply_update Link.stash]
      · exact hplace
      · rfl
    | flowing process' remote =>
      by_cases hkey : (process', remote) = inbound process slot
      · obtain ⟨rfl, rfl⟩ := Prod.mk.inj hkey
        rw [Routing.move_self]
        simp only [Holds, inbound, Function.update_self]
        exact hstreams _ _
      · rw [Cluster.move_other (by simpa [inbound] using hkey) (by simp [Cluster.next])]
        simp only [Holds, Function.update_of_ne hkey]
        exact hplace
    | carved process' worker =>
      by_cases hkey : (process', cluster.process worker) = inbound process slot
      · -- those for this worker are added to what is staged for it
        obtain ⟨rfl, rfl⟩ := Prod.mk.inj hkey
        have hmoved : cluster.routing.move
            (.flowing (Cluster.socket (cluster.process worker) slot) (cluster.process worker))
            whole others mail (.carved (Cluster.socket (cluster.process worker) slot) worker)
            = mail (.carved (Cluster.socket (cluster.process worker) slot) worker)
              ++ whole.filter fun frame => frame.header.target.toNat = worker := by
          rw [Routing.move, if_neg (by simp)]
          congr 1
          refine List.filter_congr fun frame _ => ?_
          simp [Cluster.routing, Cluster.next, Frame.target]
        rw [hmoved]
        simp only [Holds, inbound, Function.update_self, RecvLoop.stage_all,
          sub_worker_offset rfl]
        exact Carries.append hplace (Carries.map_bytes _)
      · have hother : ∀ target, cluster.next target
            (.flowing (Cluster.socket process slot) process) ≠ .carved process' worker
            ∨ cluster.process target ≠ process := by
          intro target
          by_cases htarget : cluster.process target = process
          · left
            intro heq
            obtain ⟨rfl, rfl⟩ := Place.carved.inj heq
            exact hkey (by rw [htarget]; rfl)
          · exact Or.inr htarget
        have hsame : cluster.routing.move (.flowing (Cluster.socket process slot) process) whole
            others mail (.carved process' worker) = mail (.carved process' worker) := by
          refine cluster.routing.move_other (by simp) fun frame hframe => ?_
          refine (hother frame.target).resolve_right (not_not_intro ?_)
          exact h.process_target (hsrc ▸ List.mem_append_left _ hframe)
        rw [hsame]
        simp only [Holds, Function.update_of_ne hkey]
        exact hplace
    | arrived process' worker =>
      rw [Cluster.move_other (by simp) (by simp [Cluster.next]), Holds, apply_update Link.targets]
      · exact hplace
      · rfl
    | _ =>
      rw [Cluster.move_other (by simp) (by simp [Cluster.next])]
      exact hplace
  · intro worker slot' hout
    rw [hsources'] at hout
    exact h.complete worker slot' hout

/-- What is staged for a worker goes to the end of its queue. -/
theorem Represents.hand_over (h : Represents codec cluster state mail history)
    {merges : List Bool} (hindex : index < cluster.threads) :
    ∃ mail', Represents codec cluster
      { state with
        links := Function.update state.links (inbound process slot)
          ((state.links (inbound process slot)).hand_over merges index) } mail' history := by
  have hprocess := Cluster.process_offset_add process hindex
  have hsub : cluster.worker_offset process + index - cluster.worker_offset process = index := by
    omega
  obtain ⟨hclosed', hstash', hsources'⟩ := h.set_link (inbound process slot)
    ((state.links (inbound process slot)).hand_over merges index) rfl rfl
    (h.stash (inbound process slot))
  refine ⟨_, h.move (.carved (Cluster.socket process slot) (cluster.worker_offset process + index))
    (List.append_nil _).symm (by simp) ?_ h.sent h.pushers hclosed' hstash' ?_⟩
  · intro place
    have hplace := h.holds place
    cases place with
    | stashed process' remote =>
      rw [Cluster.move_other (by simp) (by simp [Cluster.next]), Holds, apply_update Link.stash]
      · exact hplace
      · rfl
    | flowing process' remote =>
      rw [Cluster.move_other (by simp) (by simp [Cluster.next])]
      exact Streams.update hplace rfl rfl rfl rfl
    | carved process' worker =>
      by_cases hsame : Place.carved process' worker
          = .carved (Cluster.socket process slot) (cluster.worker_offset process + index)
      · obtain ⟨rfl, rfl⟩ := Place.carved.inj hsame
        rw [Routing.move_self]
        simp only [Holds, hprocess, hsub, inbound, Function.update_self, Link.hand_over]
        exact Carries.nil
      · rw [Cluster.move_other hsame (by simp [Cluster.next])]
        by_cases hkey : (process', cluster.process worker) = inbound process slot
        · obtain ⟨rfl, rfl⟩ := Prod.mk.inj hkey
          have hne : worker - cluster.worker_offset (cluster.process worker) ≠ index := by
            rintro rfl
            exact hsame (by rw [sub_worker_offset rfl])
          simp only [Holds, inbound, Function.update_self, Link.hand_over,
            Function.update_of_ne hne]
          exact hplace
        · simp only [Holds, Function.update_of_ne hkey]
          exact hplace
    | arrived process' worker =>
      by_cases hsame : Place.carved process' worker
          = .carved (Cluster.socket process slot) (cluster.worker_offset process + index)
      · obtain ⟨rfl, rfl⟩ := Place.carved.inj hsame
        rw [Cluster.move_next (by simp) (by simp [Cluster.next])]
        have hcarved := h.holds
          (.carved (Cluster.socket process slot) (cluster.worker_offset process + index))
        simp only [Holds, hprocess, hsub] at hplace hcarved
        simp only [Holds, hprocess, hsub, inbound, Function.update_self, Link.hand_over]
        exact MergeQueue.carries_extend merges hplace hcarved
      · rw [Cluster.move_other (by simp) (by simpa [Cluster.next, eq_comm] using hsame)]
        by_cases hkey : (process', cluster.process worker) = inbound process slot
        · obtain ⟨rfl, rfl⟩ := Prod.mk.inj hkey
          have hne : worker - cluster.worker_offset (cluster.process worker) ≠ index := by
            rintro rfl
            exact hsame (by rw [sub_worker_offset rfl])
          simp only [Holds, inbound, Function.update_self, Link.hand_over,
            Function.update_of_ne hne]
          exact hplace
        · simp only [Holds, Function.update_of_ne hkey]
          exact hplace
    | _ =>
      rw [Cluster.move_other (by simp) (by simp [Cluster.next])]
      exact hplace
  · intro worker slot' hout
    rw [hsources'] at hout
    exact h.complete worker slot' hout

/-- A worker stages what is in its queue from another process. -/
theorem Represents.drain_recv (h : Represents codec cluster state mail history)
    {vec queue : List (List UInt8)}
    (hdrain : MergeQueue.drain_into
      ((state.links (inbound (cluster.process index) slot)).targets
        (index - cluster.worker_offset (cluster.process index)))
      (state.workers index).staged = (vec, queue)) :
    ∃ mail', Represents codec cluster
      { state with
        links := Function.update state.links (inbound (cluster.process index) slot)
          { state.links (inbound (cluster.process index) slot) with
            targets := Function.update
              (state.links (inbound (cluster.process index) slot)).targets
              (index - cluster.worker_offset (cluster.process index)) queue }
        workers := Function.update state.workers index
          { state.workers index with staged := vec } } mail' history := by
  obtain ⟨rfl, rfl⟩ := Prod.mk.inj hdrain
  obtain ⟨hclosed', hstash', hsources'⟩ := h.set_link (inbound (cluster.process index) slot)
    { state.links (inbound (cluster.process index) slot) with
      targets := Function.update (state.links (inbound (cluster.process index) slot)).targets
        (index - cluster.worker_offset (cluster.process index)) [] } rfl rfl
    (h.stash (inbound (cluster.process index) slot))
  refine ⟨_, h.move (.arrived (Cluster.socket (cluster.process index) slot) index)
    (List.append_nil _).symm (by simp) ?_ h.sent h.pushers hclosed' hstash' ?_⟩
  · intro place
    have hplace := h.holds place
    cases place with
    | stashed process' remote =>
      rw [Cluster.move_other (by simp) (by simp [Cluster.next]), Holds, apply_update Link.stash]
      · exact hplace
      · rfl
    | flowing process' remote =>
      rw [Cluster.move_other (by simp) (by simp [Cluster.next])]
      exact Streams.update hplace rfl rfl rfl rfl
    | carved process' worker =>
      rw [Cluster.move_other (by simp) (by simp [Cluster.next]), Holds, apply_update Link.stageds]
      · exact hplace
      · rfl
    | arrived process' worker =>
      by_cases hsame : Place.arrived process' worker
          = .arrived (Cluster.socket (cluster.process index) slot) index
      · obtain ⟨rfl, rfl⟩ := Place.arrived.inj hsame
        rw [Routing.move_self]
        simp only [Holds, inbound, Function.update_self]
        exact Carries.nil
      · rw [Cluster.move_other hsame (by simp [Cluster.next])]
        by_cases hkey : (process', cluster.process worker)
            = inbound (cluster.process index) slot
        · obtain ⟨rfl, hprocess⟩ := Prod.mk.inj hkey
          have hne : worker - cluster.worker_offset (cluster.process worker)
              ≠ index - cluster.worker_offset (cluster.process index) := by
            intro heq
            have hworker := sub_worker_offset hprocess
            rw [← hprocess] at hworker
            rw [heq, hprocess, sub_worker_offset rfl] at hworker
            exact hsame (by rw [hworker])
          simp only [Holds, inbound, hprocess, Function.update_self] at hplace hne ⊢
          rw [Function.update_of_ne hne]
          exact hplace
        · simp only [Holds, Function.update_of_ne hkey]
          exact hplace
    | staged worker =>
      by_cases hworker : worker = index
      · subst hworker
        rw [Cluster.move_next (by simp) (by simp [Cluster.next])]
        simp only [Holds, Function.update_self]
        exact Carries.append hplace
          (h.holds (.arrived (Cluster.socket (cluster.process worker) slot) worker))
      · rw [Cluster.move_other (by simp) (by simpa [Cluster.next, eq_comm] using hworker)]
        simp only [Holds, Function.update_of_ne hworker]
        exact hplace
    | received worker =>
      rw [Cluster.move_other (by simp) (by simp [Cluster.next])]
      by_cases hworker : worker = index
      · subst hworker
        simp only [Holds, Function.update_self]
        exact TcpAllocator.Keeps.congr hplace rfl rfl rfl rfl
      · simp only [Holds, Function.update_of_ne hworker]
        exact hplace
    | _ =>
      rw [Cluster.move_other (by simp) (by simp [Cluster.next])]
      exact hplace
  · intro worker slot' hout
    rw [hsources'] at hout
    exact h.complete worker slot' hout

theorem Represents.receive (h : Represents codec cluster state mail history)
    (hlawful : codec.Lawful) {fuel : ℕ} {allocator' : TcpAllocator}
    (hreceive : (state.workers index).receive codec fuel = some allocator') :
    ∃ mail', Represents codec cluster
      { state with workers := Function.update state.workers index allocator' } mail' history := by
  have hstaged : Carries codec (state.workers index).staged (mail (.staged index)) :=
    h.holds (.staged index)
  have hkeeps : (state.workers index).Keeps (mail (.received index)) fun channel =>
      history.pulled (index, channel) := h.holds (.received index)
  obtain ⟨hempty, hkeeps'⟩ := hkeeps.receive hlawful hstaged hreceive
  refine ⟨_, h.move (.staged index)
    (List.append_nil _).symm (by simp) ?_ h.sent h.pushers
    h.closed h.stash h.complete⟩
  intro place
  have hplace := h.holds place
  cases place with
  | staged worker =>
    by_cases hworker : worker = index
    · subst hworker
      rw [Routing.move_self]
      simp only [Holds, Function.update_self, hempty]
      exact Carries.nil
    · rw [Cluster.move_other (by simpa using hworker) (by simp [Cluster.next])]
      simp only [Holds, Function.update_of_ne hworker]
      exact hplace
  | received worker =>
    by_cases hworker : worker = index
    · subst hworker
      rw [Cluster.move_next (by simp) (by simp [Cluster.next])]
      simp only [Holds, Function.update_self]
      exact hkeeps'
    · rw [Cluster.move_other (by simp) (by simpa [Cluster.next, eq_comm] using hworker)]
      simp only [Holds, Function.update_of_ne hworker]
      exact hplace
  | _ =>
    rw [Cluster.move_other (by simp) (by simp [Cluster.next])]
    exact hplace

/-- Receiving ends, for every worker. -/
theorem Represents.receive_isSome (h : Represents codec cluster state mail history)
    (hlawful : codec.Lawful) : ∃ fuel, ((state.workers index).receive codec fuel).isSome := by
  have hstaged : Carries codec (state.workers index).staged (mail (.staged index)) :=
    h.holds (.staged index)
  have hkeeps : (state.workers index).Keeps (mail (.received index)) fun channel =>
      history.pulled (index, channel) := h.holds (.received index)
  exact ⟨(mail (.staged index)).length, hkeeps.receive_isSome hlawful hstaged (Nat.le_refl _)⟩

end Receiving

end Timely.Network
