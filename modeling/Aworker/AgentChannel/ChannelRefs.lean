/-
  Aworker.AgentChannel.ChannelRefs — the data channel's use of its socket's handle.

  Both results start where JavaScript does: the channel has connected and the agent has
  accepted its credentials (`Opened`).

  Main results: `null_socket_iff`, `refs_counted`.
-/

import Aworker.AgentChannel.DataChannel

namespace Aworker.AgentChannel

open Option

open Std (TreeMap)
open Aworker.Lib (run run_cons run_inv Along Reached reached_iff_along along_true size_erase_add_one mem_of_get)
open Aworker.Ipc (Protobuf RequestId RequestKind CanonicalCode Delegate Answer onResponse onReturned)

variable (P : Protobuf)

/-! ## The opened channel -/

def openEvents (credentials : P.Msg) (resp : Option P.Msg) : List (ChannelEv P) :=
  [.connect true credentials, .response 0 .ok resp, .returned]

/-- `WaitForAgent` has returned, and no JavaScript has run yet. -/
structure Opened (s : Channel P) : Prop where
  connecting : s.connecting = false
  crashed : s.crashed = false
  socket : s.socket = some s.refed
  refCount : s.refCount = if s.refed then 1 else 0
  table : s.delegate.Ok
  noCalls : ∀ id : RequestId, s.delegate.callbacks[id]? = none
  noTimers : s.delegate.timers.size = 0
  noRequests : s.callbacks.size = 0
  counts : s.called = 0 ∧ s.completed = 0 ∧ s.received = 0 ∧ s.fedBack = 0 ∧ s.refs = (if s.refed then 1 else 0) ∧ s.unrefs = 0

variable {s : Channel P}

theorem opened {refed : Bool} {credentials : P.Msg} {resp : Option P.Msg}
    (h : run (channelStep P) { refed := refed } (openEvents P credentials resp) = some s) : Opened P s := by
  have hnum : Numbered P s.delegate s.passed :=
    run_inv (Q := fun _ _ => True) (fun _ _ _ hn _ hs => channelStep_numbered P hn hs) (init_numbered P) (along_true _ _) h
  cases refed with
  | false =>
    obtain rfl := Option.some.inj h
    exact ⟨rfl, rfl, rfl, rfl, hnum.table, fun id => TreeMap.getElem?_of_isEmpty rfl, rfl, rfl, rfl, rfl, rfl, rfl, rfl, rfl⟩
  | true =>
    obtain rfl := Option.some.inj h
    exact ⟨rfl, rfl, rfl, rfl, hnum.table, fun id => TreeMap.getElem?_of_isEmpty rfl, rfl, rfl, rfl, rfl, rfl, rfl, rfl, rfl⟩

/-! ## A null socket -/

/-- `socket_` is null, and the event takes the count from zero or back to it. -/
def UsesNull (s : Channel P) : ChannelEv P → Prop
  | .jsCall _ _ | .incoming _ _ | .ref => s.socket = none ∧ s.refCount = 0
  | .unref => s.socket = none ∧ s.refCount = 1
  | .feedback id _ => s.socket = none ∧ s.refCount = 1 ∧ id ∈ s.callbacks
  | _ => False

instance (s : Channel P) : DecidablePred (UsesNull P s)
  | .jsCall _ _ | .incoming _ _ | .ref => inferInstanceAs (Decidable (s.socket = none ∧ s.refCount = 0))
  | .unref => inferInstanceAs (Decidable (s.socket = none ∧ s.refCount = 1))
  | .feedback id _ => inferInstanceAs (Decidable (s.socket = none ∧ s.refCount = 1 ∧ id ∈ s.callbacks))
  | .connect _ _ | .response _ _ _ | .expire _ | .returned | .disconnected => isFalse id

/-- After the opening every call that is open is JavaScript's. -/
structure JsOnly (s : Channel P) : Prop where
  connecting : s.connecting = false
  table : s.delegate.Ok
  js : ∀ (id : RequestId) (c : Closure), s.delegate.callbacks[id]? = some c → ∃ n, c = .js n

theorem opened_jsOnly (h : Opened P s) : JsOnly P s :=
  ⟨h.connecting, h.table, fun id c hc => by rw [h.noCalls] at hc; cases hc⟩

/-- `socket_` after a reference was taken, and after one was given back. -/
def takenSocket (s : Channel P) : Option Bool := if s.refCount = 0 then some true else s.socket

def droppedSocket (s : Channel P) : Option Bool := if s.refCount = 1 then some false else s.socket

inductive Moves (s : Channel P) : ChannelEv P → Channel P → Prop
  | crash (e : ChannelEv P) : UsesNull P s e → Moves s e { s with crashed := true }
  | jsCall (kind : RequestKind) (body : P.Msg) (d : Delegate P Closure) : ¬ UsesNull P s (.jsCall kind body) →
      Ipc.request P s.delegate s.socket.isSome ⟨s.seq, kind, body, .js s.passed⟩ = some d →
      Moves s (.jsCall kind body) { s with
        socket := takenSocket P s, refCount := s.refCount + 1, called := s.called + 1
        delegate := d, seq := s.seq + 1, passed := s.passed + 1 }
  | complete (e : ChannelEv P) (id : RequestId) (t : Nat) (c : Closure) (code : CanonicalCode) (body : Option P.Msg)
      (d : Delegate P Closure) : e = .response id code body ∨ e = .expire t → s.delegate.running = none →
      s.delegate.callbacks[id]? = some c → s.delegate.timers[id]? = some t → Ipc.Completes P s.delegate d id c code body →
      Moves s e (callback P { s with delegate := d })
  | unknown (id : RequestId) (code : CanonicalCode) (body : Option P.Msg) : Moves s (.response id code body) s
  | returned (id : RequestId) : s.delegate.running = some id →
      Moves s .returned { s with delegate := onReturned P s.delegate id }
  | incoming (id : RequestId) (k : Emitted) : ¬ UsesNull P s (.incoming id k) → Moves s (.incoming id k) { s with
      socket := takenSocket P s, refCount := s.refCount + 1, received := s.received + 1
      callbacks := s.callbacks.insert id k.kind }
  | unknownFeedback (id : RequestId) (a : Answer P) : id ∉ s.callbacks → Moves s (.feedback id a) s
  | feedback (id : RequestId) (a : Answer P) (d : Delegate P Closure) : id ∈ s.callbacks → ¬ UsesNull P s (.feedback id a) →
      SameCalls P s.delegate d → Moves s (.feedback id a) { s with
        socket := droppedSocket P s, refCount := s.refCount - 1, fedBack := s.fedBack + 1
        callbacks := s.callbacks.erase id, delegate := d }
  | ref : ¬ UsesNull P s .ref → Moves s .ref { s with
      socket := takenSocket P s, refCount := s.refCount + 1, refs := s.refs + 1 }
  | unref : ¬ UsesNull P s .unref → Moves s .unref { s with
      socket := droppedSocket P s, refCount := s.refCount - 1, unrefs := s.unrefs + 1 }
  | disconnected : Moves s .disconnected { s with socket := none }

theorem complete_js (h : JsOnly P s) {d : Delegate P Closure} {id : RequestId} {c : Closure}
    (hc : s.delegate.callbacks[id]? = some c) (code : CanonicalCode) :
    complete P s d id code = some (callback P { s with delegate := d }) := by
  obtain ⟨n, rfl⟩ := h.js id c hc
  simp only [complete, hc]
  rfl

theorem takenSocket_isSome (h : ¬ (s.socket = none ∧ s.refCount = 0)) : (takenSocket P s).isSome = s.socket.isSome := by
  unfold takenSocket
  by_cases h0 : s.refCount = 0
  · have hs : s.socket.isSome = true := isSome_iff_ne_none.mpr fun hs => h ⟨hs, h0⟩
    rw [if_pos h0, hs]; rfl
  · rw [if_neg h0]

variable {s' : Channel P} {e : ChannelEv P}

theorem channelStep_moves (h : JsOnly P s) (hs : channelStep P s e = some s') : Moves P s e s' := by
  obtain ⟨-, hloop, hs⟩ := channelStep_some P hs
  cases e with
  | connect ok body => simp [channelOp, h.connecting] at hs
  | jsCall kind body =>
    simp only [channelOp] at hs
    cases ht : takeRef P s with
    | none =>
      rw [ht] at hs
      obtain rfl := Option.some.inj hs
      exact .crash _ ((takeRef_none P).mp ht)
    | some s1 =>
      rw [ht] at hs
      obtain ⟨hno, rfl⟩ := takeRef_some P ht
      obtain ⟨d, hd, rfl⟩ := map_eq_some_iff.mp hs
      have hsome := takenSocket_isSome P hno
      unfold takenSocket at hsome
      simp only [hsome] at hd
      exact .jsCall kind body d hno hd
  | response id code body =>
    obtain rfl := Option.some.inj hs
    have hrun := hloop rfl
    cases hc : s.delegate.callbacks[id]? with
    | none =>
      have : complete P s (onResponse P s.delegate id code body) id code = some s := by simp [complete, hc, onResponse]
      rw [this]
      exact .unknown id code body
    | some c =>
      obtain ⟨t, ht⟩ := Ipc.timer_of_callback P h.table hrun hc
      rw [complete_js P h hc]
      exact .complete _ id t c code body _ (Or.inl rfl) hrun hc ht (Ipc.onResponse_completes P hc ht code body)
  | expire t =>
    obtain ⟨id, hid, rfl⟩ := map_eq_some_iff.mp hs
    have hrun := hloop rfl
    obtain ⟨c, hc, ht⟩ := Ipc.callback_of_armed P h.table hid
    rw [complete_js P h hc]
    exact .complete _ id t c .timeout none _ (Or.inr rfl) hrun hc ht (Ipc.onTimeout_completes P hc ht)
  | returned =>
    obtain ⟨id, hid, rfl⟩ := map_eq_some_iff.mp hs
    exact .returned id hid
  | incoming id k =>
    obtain rfl := Option.some.inj hs
    cases ht : takeRef P { s with callbacks := s.callbacks.insert id k.kind } with
    | none =>
      have hu := (takeRef_none P).mp ht
      exact .crash _ hu
    | some s1 =>
      obtain ⟨hno, rfl⟩ := takeRef_some P ht
      exact .incoming id k hno
  | feedback id a =>
    simp only [channelOp] at hs
    split at hs
    · cases hc : s.callbacks[id]? with
      | none =>
        rw [hc] at hs
        obtain rfl := Option.some.inj hs
        exact .unknownFeedback id a (by rw [TreeMap.mem_iff_isSome_getElem?, hc]; simp)
      | some kind =>
        have hm : id ∈ s.callbacks := mem_of_get hc
        rw [hc] at hs
        obtain rfl := Option.some.inj hs
        cases hd : dropRef P s with
        | none =>
          obtain ⟨h1, h2⟩ := (dropRef_none P).mp hd
          exact .crash _ ⟨h1, h2, hm⟩
        | some s1 =>
          obtain ⟨hno, rfl⟩ := dropRef_some P hd
          exact .feedback id a _ hm (fun hu => hno ⟨hu.1, hu.2.1⟩) (respond_sameCalls P _ _ _ _ _)
    · cases hs
  | ref =>
    obtain rfl := Option.some.inj hs
    unfold ref
    cases ht : takeRef P s with
    | none =>
      have hu := (takeRef_none P).mp ht
      exact .crash _ hu
    | some s1 =>
      obtain ⟨hno, rfl⟩ := takeRef_some P ht
      exact .ref hno
  | unref =>
    obtain rfl := Option.some.inj hs
    unfold unref
    cases hd : dropRef P s with
    | none => exact .crash _ ((dropRef_none P).mp hd)
    | some s1 =>
      obtain ⟨hno, rfl⟩ := dropRef_some P hd
      exact .unref hno
  | disconnected =>
    obtain rfl := Option.some.inj hs
    exact .disconnected

theorem channelStep_jsOnly (h : JsOnly P s) (hs : channelStep P s e = some s') : JsOnly P s' := by
  cases channelStep_moves P h hs with
  | crash _ _ => exact ⟨h.connecting, h.table, h.js⟩
  | jsCall kind body d _ hd =>
    by_cases hsock : s.socket.isSome = true
    · rw [hsock] at hd
      refine ⟨h.connecting, Ipc.request_table P h.table hd, ?_⟩
      obtain ⟨-, -, rfl⟩ := Ipc.request_some P hd
      intro id c hc
      by_cases he : s.seq = id
      · exact ⟨s.passed, by simpa [he] using hc.symm⟩
      · exact h.js id c (by simpa [TreeMap.getElem?_insert, he] using hc)
    · rw [Bool.not_eq_true] at hsock
      rw [hsock, Ipc.request_noSocket] at hd
      obtain rfl := Option.some.inj hd
      exact ⟨h.connecting, h.table, h.js⟩
  | complete _ id t c code body d _ hrun hc _ hcomp =>
    rw [callback_eq]
    refine ⟨h.connecting, Ipc.completes_table P h.table hrun hc hcomp, ?_⟩
    show ∀ (id : RequestId) (c : Closure), d.callbacks[id]? = some c → ∃ n, c = .js n
    rw [hcomp.callbacks]; exact h.js
  | unknown id code body => exact h
  | returned id hrun =>
    refine ⟨h.connecting, Ipc.onReturned_table P h.table hrun, ?_⟩
    intro id' c hc
    by_cases he : id = id'
    · simp [onReturned, he] at hc
    · exact h.js id' c (by simpa [onReturned, TreeMap.getElem?_erase, he] using hc)
  | incoming id k _ => exact ⟨h.connecting, h.table, h.js⟩
  | unknownFeedback id a _ => exact h
  | feedback id a d _ _ hsame =>
    refine ⟨h.connecting, sameCalls_table P hsame h.table, ?_⟩
    show ∀ (id : RequestId) (c : Closure), d.callbacks[id]? = some c → ∃ n, c = .js n
    rw [hsame.callbacks]; exact h.js
  | ref _ => exact ⟨h.connecting, h.table, h.js⟩
  | unref _ => exact ⟨h.connecting, h.table, h.js⟩
  | disconnected => exact ⟨h.connecting, h.table, h.js⟩

/-- One event of an opened channel uses a null `socket_` exactly if `UsesNull` says so. -/
theorem channelStep_crashed_iff (h : JsOnly P s) (hs : channelStep P s e = some s') :
    s'.crashed = false ↔ ¬ UsesNull P s e := by
  have hrun := (channelStep_some P hs).1
  cases channelStep_moves P h hs with
  | crash _ hu => exact iff_of_false (by simp) (not_not.mpr hu)
  | jsCall kind body d hno _ => exact iff_of_true hrun hno
  | complete _ id t c code body d he _ _ _ _ =>
    rw [callback_eq]
    refine iff_of_true hrun ?_
    rcases he with rfl | rfl <;> exact fun hu => hu
  | unknown id code body => exact iff_of_true hrun fun hu => hu
  | returned id _ => exact iff_of_true hrun fun hu => hu
  | incoming id k hno => exact iff_of_true hrun hno
  | unknownFeedback id a hno => exact iff_of_true hrun fun hu => hno hu.2.2
  | feedback id a d _ hno _ => exact iff_of_true hrun hno
  | ref hno => exact iff_of_true hrun hno
  | unref hno => exact iff_of_true hrun hno
  | disconnected => exact iff_of_true hrun fun hu => hu

/-- From the opened channel on, in any order of calls, requests, feedbacks, references and
    disconnects: no null `socket_` is used anywhere on the run exactly if no event is
    taken in a state where it is `UsesNull`. -/
theorem null_socket_iff {refed : Bool} {credentials : P.Msg} {resp : Option P.Msg} {s t : Channel P} {evs : List (ChannelEv P)}
    (h0 : run (channelStep P) { refed := refed } (openEvents P credentials resp) = some s)
    (hr : run (channelStep P) s evs = some t) :
    (∀ u, Reached (channelStep P) s evs u → u.crashed = false) ↔ Along (channelStep P) (fun s e => ¬ UsesNull P s e) s evs := by
  have ho := opened P h0
  exact reached_iff_along (fun _ _ _ h _ hs => channelStep_jsOnly P h hs) (fun _ _ _ h _ _ hs => channelStep_crashed_iff P h hs)
    (opened_jsOnly P ho) ho.crashed (along_true _ _) hr

def plainOpened (refed : Bool) : Channel .plain :=
  (run (channelStep .plain) { refed := refed } (openEvents .plain (.request .credentials, []) none)).getD { refed := refed }

theorem plainOpened_run (refed : Bool) :
    run (channelStep .plain) { refed := refed } (openEvents .plain (.request .credentials, []) none) = some (plainOpened refed) := by
  cases refed <;> rfl

/-- A fetch in flight across a disconnect, timed out; a reference is held all the while. -/
def fetchAcross : List (ChannelEv .plain) := [.jsCall .fetch (.request .fetch, []), .disconnected, .expire 1, .returned]

theorem null_socket_timeout : (run (channelStep .plain) (plainOpened true) fetchAcross).isSome = true ∧
    ∀ u, Reached (channelStep .plain) (plainOpened true) fetchAcross u → u.crashed = false :=
  ⟨rfl, (null_socket_iff .plain (plainOpened_run true)
    (show run (channelStep .plain) (plainOpened true) fetchAcross = some _ from rfl)).mpr (by decide)⟩

/-- The agent disconnects while nothing is open; the next fetch uses the dropped socket. -/
theorem null_socket_used : ∃ t, run (channelStep .plain) { refed := false } (openEvents .plain (.request .credentials, []) none ++
    [.disconnected, .jsCall .fetch (.request .fetch, [])]) = some t ∧ t.crashed = true :=
  ⟨_, rfl, rfl⟩

/-! ## Counting references -/

/-- JavaScript's calls not completed, the agent's requests not fed back, and `Ref`s less `Unref`s. -/
def outstanding (s : Channel P) : Nat := (s.called - s.completed) + (s.received - s.fedBack) + (s.refs - s.unrefs)

/-- The socket stays, the agent's open requests have different ids, every `Unref` has its
    `Ref`, and fewer than 2^32 references are out. -/
def Balanced (s : Channel P) : ChannelEv P → Prop
  | .jsCall _ _ | .ref => outstanding P s + 1 < 2 ^ 32
  | .incoming id _ => id ∉ s.callbacks ∧ outstanding P s + 1 < 2 ^ 32
  | .unref => s.unrefs < s.refs
  | .disconnected => False
  | _ => True

instance (s : Channel P) : DecidablePred (Balanced P s)
  | .jsCall _ _ | .ref => inferInstanceAs (Decidable (outstanding P s + 1 < 2 ^ 32))
  | .incoming id _ => inferInstanceAs (Decidable (id ∉ s.callbacks ∧ outstanding P s + 1 < 2 ^ 32))
  | .unref => inferInstanceAs (Decidable (s.unrefs < s.refs))
  | .disconnected => isFalse id
  | .connect _ _ | .response _ _ _ | .expire _ | .returned | .feedback _ _ => isTrue trivial

structure Counted (s : Channel P) : Prop where
  jsOnly : JsOnly P s
  crashed : s.crashed = false
  calls : s.called = s.completed + s.delegate.timers.size
  requests : s.received = s.fedBack + s.callbacks.size
  unrefs : s.unrefs ≤ s.refs
  count : s.refCount.toNat = outstanding P s
  handle : s.socket = some (decide (s.refCount ≠ 0))

theorem opened_counted (h : Opened P s) : Counted P s := by
  obtain ⟨h1, h2, h3, h4, h5, h6⟩ := h.counts
  refine ⟨opened_jsOnly P h, h.crashed, ?_, ?_, by omega, ?_, ?_⟩
  · rw [h1, h2, h.noTimers]
  · rw [h3, h4, h.noRequests]
  · rw [outstanding, h.refCount, h1, h2, h3, h4, h5, h6]
    cases s.refed <;> rfl
  · rw [h.socket, h.refCount]
    cases s.refed <;> rfl

variable {x : UInt32} {k : Nat}

theorem toNat_add_one (hx : x.toNat = k) (hk : k + 1 < 2 ^ 32) : (x + 1).toNat = k + 1 := by
  rw [UInt32.toNat_add, hx]
  exact Nat.mod_eq_of_lt hk

theorem toNat_sub_one (hx : x.toNat = k + 1) : (x - 1).toNat = k := by
  have h1 : (1 : UInt32) ≤ x := by
    rw [UInt32.le_iff_toNat_le, hx]
    exact Nat.le_add_left 1 k
  rw [UInt32.toNat_sub_of_le _ _ h1, hx]
  rfl

theorem ne_zero_of_toNat (hx : x.toNat = k + 1) : x ≠ 0 := by
  rintro rfl
  cases hx

theorem takenSocket_handle (h : Counted P s) (hb : outstanding P s + 1 < 2 ^ 32) :
    takenSocket P s = some (decide (s.refCount + 1 ≠ 0)) := by
  have hne := ne_zero_of_toNat (toNat_add_one h.count hb)
  unfold takenSocket
  rw [h.handle]
  by_cases h0 : s.refCount = 0 <;> simp [h0, hne]

theorem droppedSocket_handle (h : Counted P s) (hpos : s.refCount ≠ 0) :
    droppedSocket P s = some (decide (s.refCount - 1 ≠ 0)) := by
  unfold droppedSocket
  rw [h.handle]
  by_cases h1 : s.refCount = 1
  · simp [h1]
  · simp [sub_one_eq_zero, hpos, h1]

theorem channelStep_counted (h : Counted P s) (hb : Balanced P s e)
    (hs : channelStep P s e = some s') : Counted P s' := by
  have hjs := channelStep_jsOnly P h.jsOnly hs
  have hcalls := h.calls
  have hreq := h.requests
  have hunref := h.unrefs
  have hcount := h.count
  have hsock : s.socket.isSome = true := by rw [h.handle]; rfl
  have hnull : ¬ UsesNull P s e := by
    intro hu
    have hs : s.socket = none := by
      cases e with
      | jsCall _ _ | incoming _ _ | ref | unref | feedback _ _ => exact hu.1
      | _ => exact hu.elim
    rw [hs] at hsock; cases hsock
  cases channelStep_moves P h.jsOnly hs with
  | crash _ hu => exact absurd hu hnull
  | jsCall kind body d _ hd =>
    rw [hsock] at hd
    obtain ⟨-, hfresh, rfl⟩ := Ipc.request_some P hd
    refine ⟨hjs, h.crashed, ?_, hreq, hunref, ?_, takenSocket_handle P h hb⟩
    · simp [TreeMap.size_insert, hfresh]; omega
    · rw [toNat_add_one hcount hb]; simp only [outstanding]; omega
  | complete _ id t c code body d _ _ _ ht hcomp =>
    have hmem : id ∈ s.delegate.timers := mem_of_get ht
    have hsize := size_erase_add_one hmem
    rw [callback_eq] at hjs ⊢
    have hpos : s.refCount.toNat = outstanding P s - 1 + 1 := by unfold outstanding at hcount ⊢; omega
    refine ⟨hjs, h.crashed, ?_, hreq, hunref, ?_, ?_⟩
    · simp only [hcomp.timers]; omega
    · rw [toNat_sub_one hpos]; simp only [outstanding]; omega
    · have := droppedSocket_handle P h (ne_zero_of_toNat hpos)
      unfold droppedSocket at this
      rw [← this]
      show (if s.refCount = 1 then s.socket.map fun _ => false else s.socket) = _
      rw [h.handle]; rfl
  | unknown id code body => exact h
  | returned id _ => exact ⟨hjs, h.crashed, hcalls, hreq, hunref, hcount, h.handle⟩
  | incoming id k _ =>
    refine ⟨hjs, h.crashed, hcalls, ?_, hunref, ?_, takenSocket_handle P h hb.2⟩
    · simp [TreeMap.size_insert, hb.1]; omega
    · rw [toNat_add_one hcount hb.2]; simp only [outstanding]; omega
  | unknownFeedback id a _ => exact h
  | feedback id a d hmem _ hsame =>
    have hsize := size_erase_add_one hmem
    have hpos : s.refCount.toNat = outstanding P s - 1 + 1 := by unfold outstanding at hcount ⊢; omega
    refine ⟨hjs, h.crashed, ?_, ?_, hunref, ?_, droppedSocket_handle P h (ne_zero_of_toNat hpos)⟩
    · simp only [hsame.timers]; exact hcalls
    · show s.received = s.fedBack + 1 + (s.callbacks.erase id).size
      omega
    · rw [toNat_sub_one hpos]; simp only [outstanding]; omega
  | ref _ =>
    refine ⟨hjs, h.crashed, hcalls, hreq, by show s.unrefs ≤ s.refs + 1; omega, ?_, takenSocket_handle P h hb⟩
    rw [toNat_add_one hcount hb]; simp only [outstanding]; omega
  | unref _ =>
    have hb : s.unrefs < s.refs := hb
    have hpos : s.refCount.toNat = outstanding P s - 1 + 1 := by unfold outstanding at hcount ⊢; omega
    refine ⟨hjs, h.crashed, hcalls, hreq, hb, ?_, droppedSocket_handle P h (ne_zero_of_toNat hpos)⟩
    rw [toNat_sub_one hpos]; simp only [outstanding]; omega
  | disconnected => exact hb.elim

/-- From the opened channel on, while the steps are `Balanced`: the count is what is open,
    neither side of the count falls below the other, and the handle is referenced exactly
    while the count is positive. -/
theorem refs_counted {refed : Bool} {credentials : P.Msg} {resp : Option P.Msg} {s t : Channel P} {evs : List (ChannelEv P)}
    (h0 : run (channelStep P) { refed := refed } (openEvents P credentials resp) = some s)
    (hr : run (channelStep P) s evs = some t) (ha : Along (channelStep P) (Balanced P) s evs) :
    t.refCount.toNat = (t.called - t.completed) + (t.received - t.fedBack) + (t.refs - t.unrefs) ∧
      t.completed ≤ t.called ∧ t.fedBack ≤ t.received ∧ t.unrefs ≤ t.refs ∧
      t.crashed = false ∧ t.socket = some (decide (0 < t.refCount.toNat)) := by
  have h : Counted P t :=
    run_inv (fun _ _ _ h hb hs => channelStep_counted P h hb hs) (opened_counted P (opened P h0)) ha hr
  have hcalls := h.calls
  have hreq := h.requests
  refine ⟨h.count, by omega, by omega, h.unrefs, h.crashed, ?_⟩
  have hiff : t.refCount ≠ 0 ↔ 0 < t.refCount.toNat := by
    rw [Nat.pos_iff_ne_zero, ne_eq, ← UInt32.toNat_inj]; rfl
  rw [h.handle, decide_eq_decide.mpr hiff]

/-- A reference, a fetch and a trigger of the agent; the trigger's feedback comes twice. -/
def threeOpen : List (ChannelEv .plain) := [.ref, .jsCall .fetch (.request .fetch, []), .incoming 5 .trigger, .unref,
  .feedback 5 ⟨.ok, none, none⟩, .feedback 5 ⟨.ok, none, none⟩, .expire 1, .returned]

theorem refs_counted_three : ∃ t, run (channelStep .plain) (plainOpened false) threeOpen = some t ∧
    t.refCount.toNat = (t.called - t.completed) + (t.received - t.fedBack) + (t.refs - t.unrefs) := by
  obtain ⟨t, ht⟩ : ∃ t, run (channelStep .plain) (plainOpened false) threeOpen = some t := ⟨_, rfl⟩
  exact ⟨t, ht, (refs_counted .plain (plainOpened_run false) ht (by decide)).1⟩

theorem run_refs (n : Nat) (hs : s.socket.isSome = true) (hc : s.crashed = false) :
    ∃ t, run (channelStep P) s (List.replicate n .ref) = some t ∧ t.refCount = s.refCount + UInt32.ofNat n ∧
      outstanding P t = s.called - s.completed + (s.received - s.fedBack) + (s.refs + n - s.unrefs) := by
  induction n generalizing s with
  | zero => exact ⟨s, rfl, (UInt32.add_zero _).symm, rfl⟩
  | succ n ih =>
    obtain ⟨b, hb⟩ := isSome_iff_exists.mp hs
    have hstep : channelStep P s .ref = some { s with
        socket := takenSocket P s, refCount := s.refCount + 1, refs := s.refs + 1 } := by
      by_cases h0 : s.refCount = 0 <;>
        simp [channelStep, channelOp, ChannelEv.fromLoop, hc, ref, takeRef, socketRef, takenSocket, orCrash, hb, h0]
    have hsome : (takenSocket P s).isSome = true := by
      rw [takenSocket_isSome P (by simp [hb])]; exact hs
    obtain ⟨t, ht, hcount, hout⟩ := ih (s := { s with
      socket := takenSocket P s, refCount := s.refCount + 1, refs := s.refs + 1 }) hsome hc
    refine ⟨t, run_cons.mpr ⟨_, hstep, ht⟩, ?_, ?_⟩
    · rw [hcount, UInt32.ofNat_add, UInt32.add_assoc, UInt32.add_comm 1]; rfl
    · rw [hout, Nat.add_assoc s.refs 1 n, Nat.add_comm 1 n]

/-- `ref_count_` has 32 bits: after 2^32 `Ref`s it is zero. -/
theorem refs_wrap : ∃ t, run (channelStep .plain) (plainOpened false) (List.replicate (2 ^ 32) .ref) = some t ∧
    t.refCount.toNat = 0 ∧ (t.called - t.completed) + (t.received - t.fedBack) + (t.refs - t.unrefs) = 2 ^ 32 := by
  obtain ⟨t, ht, hcount, hout⟩ := run_refs .plain (2 ^ 32) (s := plainOpened false) rfl rfl
  exact ⟨t, ht, by rw [hcount]; rfl, hout⟩

end Aworker.AgentChannel
