/-
  Aworker.AgentChannel.DataChannel — the worker's channel to its agent
  (src/agent_channel/noslated_data_channel.cc: `NoslatedDataChannel`).

  The channel connects, sends its credentials, and is connected once the agent accepts
  them. From then on JavaScript calls the agent (`JsCall`, completed by `Callback`), the
  agent calls JavaScript (`Emit`, answered by `Feedback`), and JavaScript takes and gives
  back references. `ref_count_` counts what is open; when it leaves or reaches zero the
  socket's handle is referenced or unreferenced, so that the loop stays alive meanwhile.
  `Disconnected` drops the socket; the delegate with its open calls stays.

  A use of the socket while `socket_` is null stops the model (`crashed`). A `CHECK` that
  fails refuses the step.
-/

import Aworker.Ipc.Delegate

namespace Aworker.AgentChannel

open List Option

open Std (TreeMap)
open Aworker.Lib (run Along Reached reached_iff_along along_true mem_of_get get_of_mem)
open Aworker.Ipc (Protobuf RequestId RequestKind CanonicalCode Delegate Answer Request onResponse onReturned onTimeout respond)

variable (P : Protobuf)

/-! ## The channel -/

/-- A closure passed to `Request_`, numbered: that of `OnConnect`, or one of the `Call*`
    functions', which ends in `Callback` whatever the code is. -/
inductive Closure where
  | credentials (n : Nat)
  | js (n : Nat)

def Closure.n : Closure → Nat
  | .credentials n => n
  | .js n => n

inductive Emitted where
  | trigger
  | streamPush
  | resourceNotification

def Emitted.kind : Emitted → RequestKind
  | .trigger => .trigger
  | .streamPush => .streamPush
  | .resourceNotification => .resourceNotification

structure Channel where
  refed : Bool
  /-- `UvSocketHolder::Connect` has not called back yet -/
  connecting : Bool := true
  /-- `socket_`, and whether its handle is referenced -/
  socket : Option Bool := none
  refCount : UInt32 := 0
  delegate : Delegate P Closure := {}
  /-- `callbacks_`: the agent's requests that wait for their `Feedback` -/
  callbacks : TreeMap RequestId RequestKind := ∅
  seq : RequestId := 0
  connected : Bool := false
  crashed : Bool := false
  /-- closures passed to `Request_` -/
  passed : Nat := 0
  /-- `JsCall`s and `Callback`s; emitted requests and their `Feedback`s; `Ref`s and `Unref`s -/
  called : Nat := 0
  completed : Nat := 0
  received : Nat := 0
  fedBack : Nat := 0
  refs : Nat := 0
  unrefs : Nat := 0

/-- `socket_->Ref()`; `none` is a null `socket_`. -/
def socketRef (s : Channel P) : Option (Channel P) := s.socket.map fun _ => { s with socket := some true }

def socketUnref (s : Channel P) : Option (Channel P) := s.socket.map fun _ => { s with socket := some false }

/-- The first lines of `JsCall`, `Emit` and `Ref`. -/
def takeRef (s : Channel P) : Option (Channel P) :=
  (if s.refCount = 0 then socketRef P s else some s).map fun s => { s with refCount := s.refCount + 1 }

/-- The first lines of `Feedback` (of a known id) and `Unref`. -/
def dropRef (s : Channel P) : Option (Channel P) :=
  let s := { s with refCount := s.refCount - 1 }
  if s.refCount = 0 then socketUnref P s else some s

/-- `Callback`, which looks at `socket_` first; what JavaScript then does is further events. -/
def callback (s : Channel P) : Channel P :=
  let s := { s with refCount := s.refCount - 1, completed := s.completed + 1 }
  if s.refCount = 0 ∧ s.socket ≠ none then { s with socket := some false } else s

def ref (s : Channel P) : Option (Channel P) := (takeRef P s).map fun s => { s with refs := s.refs + 1 }

def unref (s : Channel P) : Option (Channel P) := (dropRef P s).map fun s => { s with unrefs := s.unrefs + 1 }

/-- `Request_` with a new controller; `delegate_` lives as long as the channel, its
    `socket()` is the channel's. -/
def requestService (s : Channel P) (kind : RequestKind) (body : P.Msg) (closure : Nat → Closure) : Option (Channel P) :=
  (Ipc.request P s.delegate s.socket.isSome ⟨s.seq, kind, body, closure s.passed⟩).map fun d =>
    { s with delegate := d, seq := s.seq + 1, passed := s.passed + 1 }

/-- A closure's own code, up to the JavaScript it runs. -/
def runClosure (s : Channel P) (code : CanonicalCode) : Closure → Option (Channel P)
  | .js _ => some (callback P s)
  | .credentials _ =>
    if code ≠ .ok then some { s with socket := none }
    else (socketUnref P s).bind fun s => if s.refed then ref P { s with connected := true } else some { s with connected := true }

/-- The open call `id` ends, leaving the delegate as `d`. -/
def complete (s : Channel P) (d : Delegate P Closure) (id : RequestId) (code : CanonicalCode) : Option (Channel P) :=
  match s.delegate.callbacks[id]? with
  | none => some { s with delegate := d }
  | some c => runClosure P { s with delegate := d } code c

/-- The process after a null `socket_` was used. -/
def orCrash (s : Channel P) (o : Option (Channel P)) : Channel P := o.getD { s with crashed := true }

inductive ChannelEv where
  | connect (ok : Bool) (credentials : P.Msg)
  | jsCall (kind : RequestKind) (body : P.Msg)
  | response (id : RequestId) (code : CanonicalCode) (body : Option P.Msg)
  | expire (t : Nat)
  | returned
  | incoming (id : RequestId) (k : Emitted)
  | feedback (id : RequestId) (a : Answer P)
  | ref
  | unref
  | disconnected

/-- Is the event one of the loop's? Those wait for a callback that is on the stack. -/
def ChannelEv.fromLoop : ChannelEv P → Bool
  | .connect _ _ | .response _ _ _ | .expire _ | .incoming _ _ | .disconnected => true
  | _ => false

/-- `CanonicalCode_IsValid` -/
def validCode : CanonicalCode → Bool
  | .other _ _ => false
  | _ => true

def channelOp (s : Channel P) : ChannelEv P → Option (Channel P)
  | .connect ok body =>
    if s.connecting then
      if ok then requestService P { s with connecting := false, socket := some true } .credentials body .credentials
      else some { s with connecting := false, socket := none }
    else none
  | .jsCall kind body =>
    match takeRef P s with
    | none => some { s with crashed := true }
    | some s => requestService P { s with called := s.called + 1 } kind body .js
  | .response id code body => some (orCrash P s (complete P s (onResponse P s.delegate id code body) id code))
  | .expire t => (s.delegate.armed[t]?).map fun id => orCrash P s (complete P s (onTimeout P s.delegate t id) id .timeout)
  | .returned => s.delegate.running.map fun id => { s with delegate := onReturned P s.delegate id }
  | .incoming id k =>
    some (orCrash P s ((takeRef P { s with callbacks := s.callbacks.insert id k.kind }).map fun s =>
      { s with received := s.received + 1 }))
  | .feedback id a =>
    if validCode a.code then
      match s.callbacks[id]? with
      | none => some s
      | some kind => some (orCrash P s ((dropRef P s).map fun s => { s with
          callbacks := s.callbacks.erase id
          delegate := respond P s.delegate s.socket.isSome id kind a
          fedBack := s.fedBack + 1 }))
    else none
  | .ref => some (orCrash P s (ref P s))
  | .unref => some (orCrash P s (unref P s))
  | .disconnected => some { s with socket := none }

def channelStep (s : Channel P) (e : ChannelEv P) : Option (Channel P) :=
  if s.crashed = true ∨ e.fromLoop = true ∧ s.delegate.running ≠ none then none else channelOp P s e

/-! ## What an event does -/

variable {s s' : Channel P} {e : ChannelEv P}

theorem channelStep_some (h : channelStep P s e = some s') :
    s.crashed = false ∧ (e.fromLoop = true → s.delegate.running = none) ∧ channelOp P s e = some s' := by
  unfold channelStep at h
  split at h
  · cases h
  · rename_i hguard
    simp only [not_or, not_and, not_not, Bool.not_eq_true] at hguard
    exact ⟨hguard.1, hguard.2, h⟩

theorem takeRef_none : takeRef P s = none ↔ s.socket = none ∧ s.refCount = 0 := by
  by_cases h : s.refCount = 0 <;> simp [takeRef, socketRef, h]

theorem takeRef_some (h : takeRef P s = some s') : ¬ (s.socket = none ∧ s.refCount = 0) ∧ s' = { s with
      socket := if s.refCount = 0 then some true else s.socket
      refCount := s.refCount + 1 } := by
  refine ⟨fun hn => ?_, ?_⟩
  · rw [takeRef_none P |>.mpr hn] at h; cases h
  · by_cases h0 : s.refCount = 0
    · simp only [takeRef, h0, if_true, socketRef] at h
      obtain ⟨s1, h1, rfl⟩ := map_eq_some_iff.mp h
      obtain ⟨_, _, rfl⟩ := map_eq_some_iff.mp h1
      simp [h0]
    · simp only [takeRef, h0, if_false, map_some, Option.some.injEq] at h
      simp [h0, ← h]

theorem sub_one_eq_zero (x : UInt32) : x - 1 = 0 ↔ x = 1 := by
  constructor
  · intro h
    rw [← UInt32.sub_add_cancel x 1, h]; rfl
  · rintro rfl; rfl

theorem dropRef_none : dropRef P s = none ↔ s.socket = none ∧ s.refCount = 1 := by
  by_cases h : s.refCount = 1
  · simp [dropRef, socketUnref, h]
  · have := mt (sub_one_eq_zero s.refCount).mp h
    simp [dropRef, this, h]

theorem dropRef_some (h : dropRef P s = some s') : ¬ (s.socket = none ∧ s.refCount = 1) ∧ s' = { s with
      socket := if s.refCount = 1 then some false else s.socket
      refCount := s.refCount - 1 } := by
  refine ⟨fun hn => ?_, ?_⟩
  · rw [dropRef_none P |>.mpr hn] at h; cases h
  · by_cases h1 : s.refCount = 1
    · simp only [dropRef, h1, UInt32.sub_self, if_true, socketUnref] at h
      obtain ⟨_, _, rfl⟩ := map_eq_some_iff.mp h
      simp [h1]
    · simp only [dropRef, sub_one_eq_zero, h1, if_false, Option.some.injEq] at h
      simp [h1, ← h]

/-- Only the delegate's log of writes may differ. -/
structure SameCalls (d d' : Delegate P Closure) : Prop where
  callbacks : d'.callbacks = d.callbacks
  timers : d'.timers = d.timers
  armed : d'.armed = d.armed
  nextTimer : d'.nextTimer = d.nextTimer
  running : d'.running = d.running
  invoked : d'.invoked = d.invoked

theorem sameCalls_refl (d : Delegate P Closure) : SameCalls P d d := ⟨rfl, rfl, rfl, rfl, rfl, rfl⟩

theorem respond_sameCalls (d : Delegate P Closure) (socket : Bool) (id : RequestId) (kind : RequestKind) (a : Answer P) :
    SameCalls P d (respond P d socket id kind a) := by
  unfold respond
  split
  · exact ⟨rfl, rfl, rfl, rfl, rfl, rfl⟩
  · exact sameCalls_refl P d

theorem callback_eq (s : Channel P) : callback P s = { s with
    socket := if s.refCount = 1 then s.socket.map fun _ => false else s.socket
    refCount := s.refCount - 1
    completed := s.completed + 1 } := by
  unfold callback
  by_cases h1 : s.refCount = 1
  · cases s.socket <;> simp [h1]
  · simp [sub_one_eq_zero, h1]

variable {code : CanonicalCode} {c : Closure}

theorem runClosure_delegate (h : runClosure P s code c = some s') :
    s'.delegate = s.delegate ∧ s'.passed = s.passed := by
  cases c with
  | js n =>
    have h : callback P s = s' := Option.some.inj h
    rw [← h, callback_eq]
    exact ⟨rfl, rfl⟩
  | credentials n =>
    by_cases hc : code = .ok
    · simp only [runClosure, hc, ne_eq, not_true_eq_false, if_false] at h
      obtain ⟨s1, h1, h⟩ := bind_eq_some_iff.mp h
      obtain ⟨_, _, rfl⟩ := map_eq_some_iff.mp h1
      by_cases hr : s.refed = true
      · rw [if_pos hr] at h
        obtain ⟨s2, h2, rfl⟩ := map_eq_some_iff.mp h
        obtain ⟨-, rfl⟩ := takeRef_some P h2
        exact ⟨rfl, rfl⟩
      · rw [if_neg hr] at h
        obtain rfl := Option.some.inj h
        exact ⟨rfl, rfl⟩
    · simp only [runClosure, ne_eq, hc, not_false_eq_true, if_true, Option.some.injEq] at h
      rw [← h]
      exact ⟨rfl, rfl⟩

/-- The delegate's calls and the number of closures passed, before and after an event that
    drops none: as they were, with a new call, with a call completed, or with one returned. -/
inductive CallsStep (d d' : Delegate P Closure) (n n' : Nat) : Prop
  | same : SameCalls P d d' → n' = n → CallsStep d d' n n'
  | pass (r : Request P Closure) : r.cb.n = n → Ipc.request P d true r = some d' → n' = n + 1 → CallsStep d d' n n'
  | complete (id : RequestId) (c : Closure) (code : CanonicalCode) (body : Option P.Msg) : d.running = none →
      d.callbacks[id]? = some c → Ipc.Completes P d d' id c code body → n' = n → CallsStep d d' n n'
  | returned (id : RequestId) : d.running = some id → d' = onReturned P d id → n' = n → CallsStep d d' n n'

/-- `JsCall` without a socket, past its first lines: `DelegateImpl::Request` drops the closure. -/
def Drops (s : Channel P) : ChannelEv P → Prop
  | .jsCall _ _ => s.socket = none ∧ s.refCount ≠ 0
  | _ => False

instance (s : Channel P) : DecidablePred (Drops P s)
  | .jsCall _ _ => inferInstanceAs (Decidable (s.socket = none ∧ s.refCount ≠ 0))
  | .connect _ _ | .response _ _ _ | .expire _ | .returned | .incoming _ _ | .feedback _ _ | .ref | .unref | .disconnected =>
    isFalse id

variable {kind : RequestKind} {body : P.Msg}

theorem requestService_calls {closure : Nat → Closure}
    (hn : ∀ n, (closure n).n = n) (hs : s.socket ≠ none) (h : requestService P s kind body closure = some s') :
    CallsStep P s.delegate s'.delegate s.passed s'.passed := by
  obtain ⟨d, hd, rfl⟩ := map_eq_some_iff.mp h
  rw [isSome_iff_ne_none.mpr hs] at hd
  exact .pass _ (hn _) hd rfl

variable {d : Delegate P Closure} {id : RequestId}

theorem complete_calls (body : Option P.Msg)
    (hrun : s.delegate.running = none) (hnone : s.delegate.callbacks[id]? = none → d = s.delegate)
    (hsome : ∀ c, s.delegate.callbacks[id]? = some c → Ipc.Completes P s.delegate d id c code body) :
    CallsStep P s.delegate (orCrash P s (complete P s d id code)).delegate s.passed (orCrash P s (complete P s d id code)).passed := by
  cases hc : s.delegate.callbacks[id]? with
  | none =>
    rw [show complete P s d id code = some { s with delegate := d } by simp [complete, hc], hnone hc]
    exact .same (sameCalls_refl P _) rfl
  | some c =>
    rw [show complete P s d id code = runClosure P { s with delegate := d } code c by simp [complete, hc]]
    cases hr : runClosure P { s with delegate := d } code c with
    | none => exact .same (sameCalls_refl P _) rfl
    | some s1 =>
      obtain ⟨h1, h2⟩ := runClosure_delegate P hr
      refine .complete id c code body hrun hc ?_ h2
      show Ipc.Completes P s.delegate s1.delegate id c code body
      rw [h1]; exact hsome c hc

theorem jsCall_calls (h : channelOp P s (.jsCall kind body) = some s') :
    (Drops P s (.jsCall kind body) ∧ s'.delegate = s.delegate ∧ s'.passed = s.passed + 1) ∨
      (¬ Drops P s (.jsCall kind body) ∧ CallsStep P s.delegate s'.delegate s.passed s'.passed) := by
  simp only [channelOp] at h
  cases ht : takeRef P s with
  | none =>
    rw [ht] at h
    obtain rfl := Option.some.inj h
    refine Or.inr ⟨fun hd => hd.2 ((takeRef_none P).mp ht).2, .same (sameCalls_refl P _) rfl⟩
  | some s1 =>
    rw [ht] at h
    obtain ⟨hno, rfl⟩ := takeRef_some P ht
    by_cases hs : s.socket = none
    · -- the delegate finds no socket
      left
      have h0 : s.refCount ≠ 0 := fun h0 => hno ⟨hs, h0⟩
      simp only [requestService, h0, if_false, hs, isSome_none, Ipc.request_noSocket, map_some,
        Option.some.injEq] at h
      rw [← h]
      exact ⟨⟨hs, h0⟩, rfl, rfl⟩
    · refine Or.inr ⟨fun hd => hs hd.1, ?_⟩
      refine requestService_calls P (s := { s with
        socket := if s.refCount = 0 then some true else s.socket, refCount := s.refCount + 1, called := s.called + 1 })
        (fun _ => rfl) ?_ h
      show (if s.refCount = 0 then some true else s.socket) ≠ none
      split
      · simp
      · exact hs

/-- An event passes its closure to nobody, or it changes the calls by one of `CallsStep`'s. -/
theorem channelStep_calls (hok : s.delegate.Ok) (h : channelStep P s e = some s') :
    (Drops P s e ∧ s'.delegate = s.delegate ∧ s'.passed = s.passed + 1) ∨
      (¬ Drops P s e ∧ CallsStep P s.delegate s'.delegate s.passed s'.passed) := by
  obtain ⟨-, hloop, h⟩ := channelStep_some P h
  cases e with
  | connect ok body =>
    refine Or.inr ⟨id, ?_⟩
    simp only [channelOp] at h
    split at h
    · split at h
      · exact requestService_calls P (s := { s with connecting := false, socket := some true }) (fun _ => rfl) (by simp) h
      · obtain rfl := Option.some.inj h
        exact .same (sameCalls_refl P _) rfl
    · cases h
  | jsCall kind body => exact jsCall_calls P h
  | response id code body =>
    obtain rfl := Option.some.inj h
    have hrun := hloop rfl
    refine Or.inr ⟨fun hd => hd, complete_calls P body hrun ?_ ?_⟩
    · intro hc; simp [onResponse, hc]
    · intro c hc
      obtain ⟨t, ht⟩ := Ipc.timer_of_callback P hok hrun hc
      exact Ipc.onResponse_completes P hc ht code body
  | expire t =>
    obtain ⟨id, hid, rfl⟩ := map_eq_some_iff.mp h
    have hrun := hloop rfl
    obtain ⟨c', hc', ht⟩ := Ipc.callback_of_armed P hok hid
    refine Or.inr ⟨fun hd => hd, complete_calls P none hrun ?_ ?_⟩
    · intro hc
      rw [hc] at hc'
      cases hc'
    · intro c hc
      exact Ipc.onTimeout_completes P hc ht
  | returned =>
    obtain ⟨id, hid, rfl⟩ := map_eq_some_iff.mp h
    exact Or.inr ⟨fun hd => hd, .returned id hid rfl rfl⟩
  | incoming id k =>
    obtain rfl := Option.some.inj h
    refine Or.inr ⟨fun hd => hd, ?_⟩
    cases ht : takeRef P { s with callbacks := s.callbacks.insert id k.kind } with
    | none => exact .same (sameCalls_refl P _) rfl
    | some s1 =>
      obtain ⟨-, rfl⟩ := takeRef_some P ht
      exact .same (sameCalls_refl P _) rfl
  | feedback id a =>
    refine Or.inr ⟨fun hd => hd, ?_⟩
    simp only [channelOp] at h
    split at h
    · split at h
      · obtain rfl := Option.some.inj h
        exact .same (sameCalls_refl P _) rfl
      · obtain rfl := Option.some.inj h
        cases hd : dropRef P s with
        | none => exact .same (sameCalls_refl P _) rfl
        | some s1 =>
          obtain ⟨-, rfl⟩ := dropRef_some P hd
          exact .same (respond_sameCalls P _ _ _ _ _) rfl
    · cases h
  | ref =>
    obtain rfl := Option.some.inj h
    refine Or.inr ⟨fun hd => hd, ?_⟩
    unfold ref
    cases ht : takeRef P s with
    | none => exact .same (sameCalls_refl P _) rfl
    | some s1 =>
      obtain ⟨-, rfl⟩ := takeRef_some P ht
      exact .same (sameCalls_refl P _) rfl
  | unref =>
    obtain rfl := Option.some.inj h
    refine Or.inr ⟨fun hd => hd, ?_⟩
    unfold unref
    cases hd : dropRef P s with
    | none => exact .same (sameCalls_refl P _) rfl
    | some s1 =>
      obtain ⟨-, rfl⟩ := dropRef_some P hd
      exact .same (sameCalls_refl P _) rfl
  | disconnected =>
    obtain rfl := Option.some.inj h
    exact Or.inr ⟨fun hd => hd, .same (sameCalls_refl P _) rfl⟩

/-! ## No closure is dropped while there is a socket -/

def timesCalled (d : Delegate P Closure) (n : Nat) : Nat := d.invoked.countP fun i => i.cb.n = n

/-- Closure `n` was called once, or it was not called and waits, its timer armed. -/
def Kept (d : Delegate P Closure) (n : Nat) : Prop :=
  timesCalled P d n = 1 ∨ (timesCalled P d n = 0 ∧ ∃ (id : RequestId) (c : Closure) (t : Nat),
    d.callbacks[id]? = some c ∧ c.n = n ∧ d.timers[id]? = some t ∧ d.armed[t]? = some id)

/-- `n` closures were passed; the stored ones are different ones of these, not called yet
    except for the one on the stack. -/
structure Numbered (d : Delegate P Closure) (n : Nat) : Prop where
  table : d.Ok
  stored : ∀ (id : RequestId) (c : Closure), d.callbacks[id]? = some c → c.n < n
  distinct : ∀ (id id' : RequestId) (c c' : Closure), d.callbacks[id]? = some c → d.callbacks[id']? = some c' → c.n = c'.n → id = id'
  waiting : ∀ (id : RequestId) (c : Closure), d.callbacks[id]? = some c →
    timesCalled P d c.n = if d.running = some id then 1 else 0
  called : ∀ i ∈ d.invoked, i.cb.n < n

theorem init_numbered : Numbered P {} 0 := by
  refine ⟨Ipc.init_table P, ?_, ?_, ?_, ?_⟩ <;> simp

variable {n : Nat}

theorem timesCalled_unknown {k : Nat} (h : Numbered P d n) (hk : n ≤ k) : timesCalled P d k = 0 := by
  refine countP_eq_zero.mpr ?_
  intro i hi
  have := h.called i hi
  simp only [decide_eq_true_eq]
  omega

variable {d' : Delegate P Closure}

theorem completes_timesCalled {body : Option P.Msg} (h : Ipc.Completes P d d' id c code body) (k : Nat) :
    timesCalled P d' k = timesCalled P d k + if c.n = k then 1 else 0 := by
  unfold timesCalled
  rw [h.invoked, countP_append]
  by_cases hk : c.n = k <;> simp [Ipc.invocation, hk]

theorem sameCalls_table (h : SameCalls P d d') (hok : d.Ok) : d'.Ok := by
  refine ⟨?_, ?_, ?_, ?_⟩
  · rw [h.armed, h.timers]; exact hok.armed
  · rw [h.armed, h.nextTimer]; exact hok.armedLt
  · rw [h.callbacks, h.timers, h.running]; exact hok.keys
  · rw [h.timers, h.running]; exact hok.running

theorem numbered_same (h : Numbered P d n) (hsame : SameCalls P d d') : Numbered P d' n := by
  refine ⟨sameCalls_table P hsame h.table, ?_, ?_, ?_, ?_⟩
  · rw [hsame.callbacks]; exact h.stored
  · rw [hsame.callbacks]; exact h.distinct
  · unfold timesCalled
    rw [hsame.callbacks, hsame.running, hsame.invoked]; exact h.waiting
  · rw [hsame.invoked]; exact h.called

theorem numbered_pass (h : Numbered P d n) {r : Request P Closure} (hr : r.cb.n = n)
    (hreq : Ipc.request P d true r = some d') : Numbered P d' (n + 1) := by
  have htab := Ipc.request_table P h.table hreq
  have hnew := timesCalled_unknown P h (Nat.le_refl n)
  obtain ⟨hc, -, rfl⟩ := Ipc.request_some P hreq
  have hget : ∀ (id : RequestId) (c : Closure), (d.callbacks.insert r.id r.cb)[id]? = some c →
      (id = r.id ∧ c = r.cb) ∨ (id ≠ r.id ∧ d.callbacks[id]? = some c) := by
    intro id c hcb
    by_cases he : r.id = id
    · subst he
      exact Or.inl ⟨rfl, by simpa using hcb.symm⟩
    · exact Or.inr ⟨Ne.symm he, by simpa [TreeMap.getElem?_insert, he] using hcb⟩
  refine ⟨htab, ?_, ?_, ?_, fun i hi => Nat.lt_succ_of_lt (h.called i hi)⟩
  · intro id c hcb
    rcases hget id c hcb with ⟨-, rfl⟩ | ⟨-, hcb⟩
    · omega
    · have := h.stored id c hcb; omega
  · intro id id' c c' hcb hcb' he
    rcases hget id c hcb with ⟨rfl, rfl⟩ | ⟨hne, hcb⟩ <;> rcases hget id' c' hcb' with ⟨rfl, rfl⟩ | ⟨hne', hcb'⟩
    · rfl
    · have := h.stored id' c' hcb'; omega
    · have := h.stored id c hcb; omega
    · exact h.distinct id id' c c' hcb hcb' he
  · intro id c hcb
    show timesCalled P d c.n = if d.running = some id then 1 else 0
    rcases hget id c hcb with ⟨rfl, rfl⟩ | ⟨hne, hcb⟩
    · have hrun : d.running ≠ some r.id := fun hr => hc ((h.table.keys r.id).mpr (Or.inr hr))
      rw [if_neg hrun, hr]; exact hnew
    · exact h.waiting id c hcb

theorem numbered_complete (h : Numbered P d n)
    {body : Option P.Msg} (hrun : d.running = none) (hcb : d.callbacks[id]? = some c)
    (hcomp : Ipc.Completes P d d' id c code body) : Numbered P d' n := by
  refine ⟨Ipc.completes_table P h.table hrun hcb hcomp, ?_, ?_, ?_, ?_⟩
  · rw [hcomp.callbacks]; exact h.stored
  · rw [hcomp.callbacks]; exact h.distinct
  · intro id' c' hcb'
    rw [hcomp.callbacks] at hcb'
    rw [completes_timesCalled P hcomp, hcomp.running, h.waiting id' c' hcb', hrun]
    by_cases he : id = id'
    · subst he
      obtain rfl : c = c' := by rw [hcb] at hcb'; exact Option.some.inj hcb'
      simp
    · have hne : c.n ≠ c'.n := fun hn => he (h.distinct id id' c c' hcb hcb' hn)
      simp [he, hne]
  · intro i hi
    rw [hcomp.invoked, mem_append, mem_singleton] at hi
    rcases hi with hi | rfl
    · exact h.called i hi
    · exact h.stored id c hcb

theorem numbered_returned (h : Numbered P d n) (hrun : d.running = some id) : Numbered P (onReturned P d id) n := by
  have hget : ∀ (id' : RequestId) (c : Closure), (onReturned P d id).callbacks[id']? = some c →
      id ≠ id' ∧ d.callbacks[id']? = some c := by
    intro id' c hcb
    by_cases he : id = id'
    · simp [onReturned, he] at hcb
    · exact ⟨he, by simpa [onReturned, TreeMap.getElem?_erase, he] using hcb⟩
  refine ⟨Ipc.onReturned_table P h.table hrun, ?_, ?_, ?_, h.called⟩
  · intro id' c hcb
    exact h.stored id' c (hget id' c hcb).2
  · intro id' id'' c c' hcb hcb'
    exact h.distinct id' id'' c c' (hget id' c hcb).2 (hget id'' c' hcb').2
  · intro id' c hcb
    obtain ⟨hne, hcb⟩ := hget id' c hcb
    have hw := h.waiting id' c hcb
    have hne' : some id ≠ some id' := fun e => hne (Option.some.inj e)
    rw [hrun, if_neg hne'] at hw
    rw [if_neg (by simp [onReturned])]
    exact hw

variable {n' : Nat}

theorem numbered_step (h : Numbered P d n) (hs : CallsStep P d d' n n') : Numbered P d' n' := by
  cases hs with
  | same hsame hn => subst hn; exact numbered_same P h hsame
  | pass r hr hreq hn => subst hn; exact numbered_pass P h hr hreq
  | complete id c code body hrun hcb hcomp hn => subst hn; exact numbered_complete P h hrun hcb hcomp
  | returned id hrun hd hn => subst hn hd; exact numbered_returned P h hrun

theorem kept_of_stored (h : Numbered P d n) (id : RequestId)
    (hc : d.callbacks[id]? = some c) (hrun : d.running ≠ some id) : Kept P d c.n := by
  have hw := h.waiting id c hc
  rw [if_neg hrun] at hw
  have hm : id ∈ d.callbacks := mem_of_get hc
  rcases (h.table.keys id).mp hm with ht | hr
  · obtain ⟨t, ht⟩ := get_of_mem ht
    exact Or.inr ⟨hw, id, c, t, hc, rfl, ht, (h.table.armed t id).mpr ht⟩
  · exact absurd hr hrun

theorem kept_step (h : Numbered P d n) (hs : CallsStep P d d' n n')
    (hk : ∀ k < n, Kept P d k) : ∀ k < n', Kept P d' k := by
  have h' := numbered_step P h hs
  cases hs with
  | same hsame hn =>
    subst hn
    unfold Kept timesCalled at *
    rw [hsame.callbacks, hsame.timers, hsame.armed, hsame.invoked]; exact hk
  | pass r hr hreq hn =>
    subst hn
    obtain ⟨hno, -, rfl⟩ := Ipc.request_some P hreq
    intro k hlt
    by_cases hkn : k = n
    · subst hkn
      have hrun : d.running ≠ some r.id := fun hr => hno ((h.table.keys r.id).mpr (Or.inr hr))
      rw [← hr]
      exact kept_of_stored P h' r.id (by simp) hrun
    · rcases hk k (by omega) with h1 | ⟨-, id, c, t, hc, rfl, ht, -⟩
      · exact Or.inl h1
      · have hrun : d.running ≠ some id := fun hr =>
          h.table.running id hr (mem_of_get ht)
        have hne : r.id ≠ id := fun he => hno (by rw [he]; exact mem_of_get hc)
        exact kept_of_stored P h' id (by simpa [TreeMap.getElem?_insert, hne] using hc) hrun
  | complete id c code body hrun hcb hcomp hn =>
    subst hn
    have hzero := h.waiting id c hcb
    rw [hrun, if_neg (by simp)] at hzero
    intro k hlt
    rcases hk k hlt with h1 | ⟨-, id', c', t, hc', rfl, -, -⟩
    · have hne : c.n ≠ k := by
        intro he
        subst he
        omega
      left
      rw [completes_timesCalled P hcomp, h1, if_neg hne]
    · by_cases he : id = id'
      · subst he
        obtain rfl : c = c' := by rw [hcb] at hc'; exact Option.some.inj hc'
        left
        rw [completes_timesCalled P hcomp, hzero, if_pos rfl]
      · refine kept_of_stored P h' id' (by rw [hcomp.callbacks]; exact hc') ?_
        rw [hcomp.running]
        exact fun e => he (Option.some.inj e)
  | returned id hrun hd hn =>
    subst hn hd
    intro k hlt
    rcases hk k hlt with h1 | ⟨-, id', c, t, hc, rfl, ht, -⟩
    · exact Or.inl h1
    · have hne : id ≠ id' := by
        intro he
        subst he
        exact h.table.running id hrun (mem_of_get ht)
      exact kept_of_stored P h' id' (by simpa [onReturned, TreeMap.getElem?_erase, hne] using hc) (by simp [onReturned])

theorem numbered_drop (h : Numbered P d n) : Numbered P d (n + 1) :=
  ⟨h.table, fun id c hc => Nat.lt_succ_of_lt (h.stored id c hc), h.distinct, h.waiting,
    fun i hi => Nat.lt_succ_of_lt (h.called i hi)⟩

theorem channelStep_numbered (h : Numbered P s.delegate s.passed)
    (hs : channelStep P s e = some s') : Numbered P s'.delegate s'.passed := by
  rcases channelStep_calls P h.table hs with ⟨-, hd, hp⟩ | ⟨-, hc⟩
  · rw [hd, hp]; exact numbered_drop P h
  · exact numbered_step P h hc

theorem channelStep_kept_iff (h : Numbered P s.delegate s.passed)
    (hk : ∀ n < s.passed, Kept P s.delegate n) (hs : channelStep P s e = some s') :
    (∀ n < s'.passed, Kept P s'.delegate n) ↔ ¬ Drops P s e := by
  rcases channelStep_calls P h.table hs with ⟨hdrop, hd, hp⟩ | ⟨hno, hc⟩
  · refine iff_of_false ?_ (not_not.mpr hdrop)
    intro hall
    have hzero := timesCalled_unknown P h (Nat.le_refl s.passed)
    rw [hd, hp] at hall
    rcases hall s.passed (Nat.lt_succ_self _) with h1 | ⟨-, id, c, t, hc, hn, -, -⟩
    · omega
    · have := h.stored id c hc; omega
  · exact iff_of_true (kept_step P h hc hk) hno

/-- Along every run of the channel, whatever connects, disconnects, answers or times out:
    each closure passed to `Request_` has been called once or waits with an armed timer,
    in every state on the way, exactly if no `JsCall` gets past its first lines while
    `socket_` is null. -/
theorem completions_kept_iff {refed : Bool} {evs : List (ChannelEv P)} {t : Channel P}
    (hr : run (channelStep P) { refed := refed } evs = some t) :
    (∀ u, Reached (channelStep P) { refed := refed } evs u → ∀ n < u.passed, Kept P u.delegate n) ↔
      Along (channelStep P) (fun s e => ¬ Drops P s e) { refed := refed } evs :=
  reached_iff_along (fun _ _ _ h _ hs => channelStep_numbered P h hs) (fun _ _ _ h _ hk hs => channelStep_kept_iff P h hk hs)
    (init_numbered P) (fun n hn => absurd hn (Nat.not_lt_zero n)) (along_true _ _) hr

theorem not_kept (h0 : timesCalled P d n = 0) (hs : n ∉ d.callbacks.toList.map fun p => p.2.n) : ¬ Kept P d n := by
  rintro (h1 | ⟨-, id, c, t, hc, hn, -, -⟩)
  · omega
  · exact hs (List.mem_map.mpr ⟨(id, c), TreeMap.mem_toList_iff_getElem?_eq_some.mpr hc, hn⟩)

/-- A fetch is under way when the agent disconnects; its timer completes it. -/
def fetchThenDisconnect : List (ChannelEv .plain) :=
  [.connect true (.request .credentials, []), .response 0 .ok (some (.response .credentials, [])), .returned,
    .jsCall .fetch (.request .fetch, []), .disconnected]

theorem completions_kept_timeout :
    (run (channelStep .plain) { refed := false } (fetchThenDisconnect ++ [.expire 1, .returned])).isSome = true ∧
    ∀ u, Reached (channelStep .plain) { refed := false } (fetchThenDisconnect ++ [.expire 1, .returned]) u →
      ∀ n < u.passed, Kept .plain u.delegate n :=
  ⟨rfl, (completions_kept_iff .plain
    (show run (channelStep .plain) { refed := false } (fetchThenDisconnect ++ [.expire 1, .returned]) = some _ from rfl)).mpr
      (by decide)⟩

/-- A second fetch after the disconnect: its closure was not called and is not stored. -/
theorem closure_dropped :
    ∃ t, run (channelStep .plain) { refed := false } (fetchThenDisconnect ++ [.jsCall .fetch (.request .fetch, [])]) = some t ∧
      2 < t.passed ∧ timesCalled .plain t.delegate 2 = 0 ∧ t.delegate.callbacks.toList.map (fun p => p.2.n) = [1] ∧
      ¬ Kept .plain t.delegate 2 := by
  refine ⟨_, rfl, by decide, by decide, by decide, not_kept .plain ?_ ?_⟩
  · decide
  · decide

end Aworker.AgentChannel
