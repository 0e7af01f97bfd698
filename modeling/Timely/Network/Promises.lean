/-
  Timely/Network/Promises.lean
  ============================
  **Channels between all pairs of threads** (`promise_futures` of
  `communication/src/lib.rs`).

  Each of some sending threads has a channel to each of some receiving threads.  The
  thread that sends has the senders in the order of the receivers, and the thread
  that receives has the receivers in the order of the senders.  One thing is sent
  over each channel, so it does not matter in which order this happens.
-/
import Mathlib.Data.List.Range
import Mathlib.Logic.Function.Basic
import Mathlib.Algebra.Order.Ring.Nat
import Mathlib.Tactic.Common

set_option linter.unusedSectionVars false

namespace Timely.Network

/-- The channels made so far, which have numbers, and whose ends they are. -/
structure Promises where
  senders : ℕ → List ℕ
  recvers : ℕ → List ℕ
  next : ℕ

namespace Promises

/-- Makes a channel from a sender to a receiver. -/
def connect (sender : ℕ) (promises : Promises) (recver : ℕ) : Promises :=
  ⟨Function.update promises.senders sender (promises.senders sender ++ [promises.next]),
    Function.update promises.recvers recver (promises.recvers recver ++ [promises.next]),
    promises.next + 1⟩

/-- The channels from one sender. -/
theorem foldl_connect (promises : Promises) (sender count : ℕ) :
    (List.range count).foldl (connect sender) promises =
      ⟨Function.update promises.senders sender
          (promises.senders sender ++ (List.range count).map (promises.next + ·)),
        fun recver => if recver < count then promises.recvers recver ++ [promises.next + recver]
          else promises.recvers recver,
        promises.next + count⟩ := by
  induction count with
  | zero => simp
  | succ count ih =>
    rw [List.range_succ, List.foldl_append, ih]
    simp only [List.foldl_cons, List.foldl_nil, connect, Promises.mk.injEq, Function.update_self,
      Function.update_idem, List.map_append, List.map_cons, List.map_nil, List.append_assoc,
      true_and]
    refine ⟨?_, Nat.add_assoc _ _ _⟩
    funext recver
    rcases Nat.lt_trichotomy recver count with hless | rfl | hmore
    · rw [Function.update_of_ne (Nat.ne_of_lt hless), if_pos hless, if_pos (by omega)]
    · simp
    · rw [Function.update_of_ne (Nat.ne_of_gt hmore), if_neg (by omega), if_neg (by omega)]

end Promises

/-- The number of the channel from a sender to a receiver. -/
def promise (recvs next sender recver : ℕ) : ℕ := next + sender * recvs + recver

/-- Channels for `sends` threads to send to `recvs` threads, beginning with the number `next`. -/
def promise_futures (sends recvs next : ℕ) : List (List ℕ) × List (List ℕ) × ℕ :=
  let promises := (List.range sends).foldl
    (fun promises sender => (List.range recvs).foldl (Promises.connect sender) promises)
    ⟨fun _ => [], fun _ => [], next⟩
  ((List.range sends).map promises.senders, (List.range recvs).map promises.recvers, promises.next)

theorem foldl_promises (sends recvs next : ℕ) :
    (List.range sends).foldl
        (fun promises sender => (List.range recvs).foldl (Promises.connect sender) promises)
        ⟨fun _ => [], fun _ => [], next⟩
      = ⟨fun sender => if sender < sends then (List.range recvs).map (promise recvs next sender)
          else [],
        fun recver => if recver < recvs
          then (List.range sends).map fun sender => promise recvs next sender recver else [],
        next + sends * recvs⟩ := by
  induction sends with
  | zero => simp
  | succ sends ih =>
    rw [List.range_succ, List.foldl_append, ih, List.foldl_cons, List.foldl_nil,
      Promises.foldl_connect]
    simp only [Promises.mk.injEq, Nat.lt_irrefl, if_false, List.nil_append]
    refine ⟨?_, ?_, ?_⟩
    · funext sender
      rcases Nat.lt_trichotomy sender sends with hless | rfl | hmore
      · rw [Function.update_of_ne (Nat.ne_of_lt hless), if_pos hless, if_pos (by omega)]
      · rw [Function.update_self, if_pos (Nat.lt_succ_self _)]
        rfl
      · rw [Function.update_of_ne (Nat.ne_of_gt hmore), if_neg (by omega), if_neg (by omega)]
    · funext recver
      by_cases hrecver : recver < recvs
      · simp only [if_pos hrecver, List.map_append, List.map_cons, List.map_nil]
        rfl
      · simp only [if_neg hrecver]
    · rw [Nat.add_mul, Nat.one_mul, Nat.add_assoc]

/-- The two ends of a channel are at mirrored places. -/
theorem promise_futures_eq (sends recvs next : ℕ) : promise_futures sends recvs next
    = ((List.range sends).map fun sender => (List.range recvs).map (promise recvs next sender),
      (List.range recvs).map fun recver =>
        (List.range sends).map fun sender => promise recvs next sender recver,
      next + sends * recvs) := by
  rw [promise_futures, foldl_promises]
  simp only [Prod.mk.injEq, and_true]
  refine ⟨List.map_congr_left fun sender hmem => ?_, List.map_congr_left fun recver hmem => ?_⟩
  · rw [if_pos (List.mem_range.mp hmem)]
  · rw [if_pos (List.mem_range.mp hmem)]

/-- Different pairs have different channels. -/
theorem promise_inj {recvs next sender sender' recver recver' : ℕ} (hrecver : recver < recvs)
    (hrecver' : recver' < recvs)
    (h : promise recvs next sender recver = promise recvs next sender' recver') :
    sender = sender' ∧ recver = recver' := by
  have hsum : recver + recvs * sender = recver' + recvs * sender' := by
    rw [promise, promise, Nat.mul_comm sender, Nat.mul_comm sender'] at h
    omega
  have hdiv := congrArg (· / recvs) hsum
  have hmod := congrArg (· % recvs) hsum
  simp only [Nat.add_mul_div_left _ _ (Nat.lt_of_le_of_lt (Nat.zero_le _) hrecver),
    Nat.div_eq_of_lt hrecver, Nat.div_eq_of_lt hrecver', Nat.zero_add] at hdiv
  simp only [Nat.add_mul_mod_self_left, Nat.mod_eq_of_lt hrecver, Nat.mod_eq_of_lt hrecver'] at hmod
  exact ⟨hdiv, hmod⟩

/-! ### What is sent over the channels -/

section Exchange

variable {V : Type}

/-- What a thread sends: one thing over each of its channels. -/
def fulfil (row : List ℕ) (value : ℕ → V) : List (ℕ × V) :=
  row.mapIdx fun recver channel => (channel, value recver)

/-- What a thread receives, from each of its channels in turn. -/
def receive_all (sent : List (ℕ × V)) (row : List ℕ) : Option (List V) :=
  row.mapM fun channel => sent.lookup channel

theorem mapM_some {ι : Type} {get : ι → Option V} {value : ι → V} {xs : List ι}
    (h : ∀ x ∈ xs, get x = some (value x)) : xs.mapM get = some (xs.map value) := by
  induction xs with
  | nil => rfl
  | cons x xs ih =>
    obtain ⟨hhead, htail⟩ := List.forall_mem_cons.mp h
    rw [List.mapM_cons, hhead, ih htail]
    rfl

theorem mapM_map_some {ι K : Type} {get : K → Option V} {key : ι → K} {value : ι → V} {xs : List ι}
    (h : ∀ x ∈ xs, get (key x) = some (value x)) : (xs.map key).mapM get = some (xs.map value) := by
  rw [List.mapM_map]
  exact mapM_some h

/-- A key that has one value is found with this value. -/
theorem lookup_of_unique {sent : List (ℕ × V)} {channel : ℕ} {value : V}
    (hmem : (channel, value) ∈ sent) (hunique : ∀ other, (channel, other) ∈ sent → other = value) :
    sent.lookup channel = some value := by
  induction sent with
  | nil => exact absurd hmem List.not_mem_nil
  | cons first sent ih =>
    obtain ⟨channel', value'⟩ := first
    rw [List.lookup_cons]
    by_cases hsame : channel = channel'
    · subst hsame
      rw [beq_self_eq_true, hunique value' List.mem_cons_self]
    · rw [beq_eq_false_iff_ne.mpr hsame]
      rcases List.mem_cons.mp hmem with heq | hmem
      · exact absurd (Prod.mk.inj heq).1 hsame
      · exact ih hmem fun other hother => hunique other (List.mem_cons_of_mem _ hother)

theorem mapIdx_map_range {α β : Type} (f : ℕ → α) (g : ℕ → α → β) (count : ℕ) :
    ((List.range count).map f).mapIdx g = (List.range count).map fun i => g i (f i) :=
  List.ext_getElem (by simp) (by simp)

/-- Everything that is sent over a matrix of channels. -/
def fulfil_all (senders : List (List ℕ)) (value : ℕ → ℕ → V) : List (ℕ × V) :=
  (senders.mapIdx fun sender row => fulfil row (value sender)).flatten

theorem mem_fulfil_all {sends recvs next channel : ℕ} {value : ℕ → ℕ → V} {v : V} :
    (channel, v) ∈ fulfil_all (promise_futures sends recvs next).1 value ↔
      ∃ sender < sends, ∃ recver < recvs,
        promise recvs next sender recver = channel ∧ value sender recver = v := by
  simp only [fulfil_all, promise_futures_eq, fulfil, mapIdx_map_range, ← List.flatMap_def,
    List.mem_flatMap, List.mem_map, List.mem_range, Prod.mk.injEq]

/-- A receiver gets what each of the senders has sent to it, in the order of the senders, in
    whatever order all these things are sent. -/
theorem receive_all_promises {sends recvs next : ℕ} {value : ℕ → ℕ → V} {sent : List (ℕ × V)}
    (hsent : sent.Perm (fulfil_all (promise_futures sends recvs next).1 value)) {recver : ℕ}
    (hrecver : recver < recvs) :
    receive_all sent ((List.range sends).map fun sender => promise recvs next sender recver)
      = some ((List.range sends).map fun sender => value sender recver) := by
  refine mapM_map_some fun sender hsender => lookup_of_unique ?_ fun other hother => ?_
  · rw [hsent.mem_iff, mem_fulfil_all]
    exact ⟨sender, List.mem_range.mp hsender, recver, hrecver, rfl, rfl⟩
  · rw [hsent.mem_iff, mem_fulfil_all] at hother
    obtain ⟨sender', -, recver', hrecver', hsame, rfl⟩ := hother
    obtain ⟨rfl, rfl⟩ := promise_inj hrecver' hrecver hsame
    rfl

end Exchange

end Timely.Network
