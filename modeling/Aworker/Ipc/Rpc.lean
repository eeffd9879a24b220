/-
  Aworker.Ipc.Rpc — calls from one end of a connection to the service at the other
  (src/ipc/ipc_service.cc: `NoslatedService::Request`; src/ipc/ipc_delegate_impl.cc:
  `DelegateImpl::OnRequest`).

  The client takes the next sequence number for every call and hands its closure to its
  delegate. The bytes go to the server in any chunks (`Aworker.Ipc.Link`); the server's
  delegate gives every request to the service with a closure that writes the answer, which
  the service calls whenever it likes. The answers come back the same way. A callback at
  the client may make further calls, and the service may answer while the server is
  still inside its read loop.

  Neither end disconnects and no call times out here; the service makes no calls of its own.

  Proved, over every run with fewer than 2^32 calls:
  - `net_inv`: the service has got the calls in order, and the client's closures were
    called for the answers in order, each for the call it answers.
  Also `rpc_answers`.
-/

import Aworker.Ipc.Link
import Aworker.Ipc.Delegate

namespace Aworker.Ipc

open List Option

open Std (TreeMap)
open Aworker.Lib (run run_inv Along filter_key)

variable (P : Protobuf)

/-! ## The two ends -/

/-- A request as the service gets it; the closure that comes with it keeps id and kind. -/
structure Served where
  id : RequestId
  kind : RequestKind
  body : P.Msg

/-- The closure of the service's request number `n`, called. -/
structure Answered where
  n : Nat
  id : RequestId
  kind : RequestKind
  answer : Answer P

def Answered.sent (x : Answered P) : Sent P := ⟨.response, x.id, x.kind, x.answer.msg P x.kind, x.answer.code⟩

structure Net where
  /-- the client's `seq_` -/
  seq : RequestId := 0
  /-- the calls made, in order; a closure is known by the number of its call -/
  calls : List (RequestKind × P.Msg) := []
  client : Delegate P Nat := {}
  clientRx : Reader P := {}
  server : Delegate P Nat := {}
  serverRx : Reader P := {}
  /-- the requests the service got, and the closures it called, in order -/
  served : List (Served P) := []
  answers : List (Answered P) := []

/-- `NoslatedService::Request` with a new controller. -/
def call (s : Net P) (kind : RequestKind) (body : P.Msg) : Option (Net P) :=
  (request P s.client true ⟨s.seq, kind, body, s.calls.length⟩).map fun d =>
    { s with seq := s.seq + 1, client := d, calls := s.calls ++ [(kind, body)] }

/-- The server's delegate: `OnRequest`'s switch, and `OnResponse`. -/
def serverCall (s : Net P) : Call P → Net P
  | .onRequest id (some kind) body => { s with served := s.served ++ [⟨id, kind, body⟩] }
  | .onResponse id _ code body => { s with server := onResponse P s.server id code (some body) }
  | _ => s

def clientCall (s : Net P) : Call P → Net P
  | .onResponse id _ code body => { s with client := onResponse P s.client id code (some body) }
  | _ => s

/-- The service calls the closure of its request number `n`, which it has not called yet. -/
def answer (s : Net P) (n : Nat) (a : Answer P) : Option (Net P) :=
  match s.served[n]? with
  | none => none
  | some q =>
    if n ∈ s.answers.map Answered.n then none
    else
      some { s with server := respond P s.server true q.id q.kind a, answers := s.answers ++ [⟨n, q.id, q.kind, a⟩] }

inductive NetEv where
  | call (kind : RequestKind) (body : P.Msg)
  | answer (n : Nat) (a : Answer P)
  | toServer (n : Nat)
  | serverImmediate
  | serverIterate
  | toClient (n : Nat)
  | clientImmediate
  | clientIterate
  | clientReturn

/-- A pass of the client's loop waits for the callback of the pass before it. -/
def netStep (s : Net P) : NetEv P → Option (Net P)
  | .call kind body => call P s kind body
  | .answer n a => answer P s n a
  | .toServer n => (receive P s.serverRx s.client.wrote n).map fun r => { s with serverRx := r }
  | .serverImmediate => (beginRead P s.serverRx).map fun r => { s with serverRx := r }
  | .serverIterate => (iterate P s.serverRx).map fun p => (p.2.map (Out.call P)).foldl (serverCall P) { s with serverRx := p.1 }
  | .toClient n => (receive P s.clientRx s.server.wrote n).map fun r => { s with clientRx := r }
  | .clientImmediate => (beginRead P s.clientRx).map fun r => { s with clientRx := r }
  | .clientIterate =>
    if s.client.running = none then
      (iterate P s.clientRx).map fun p => (p.2.map (Out.call P)).foldl (clientCall P) { s with clientRx := p.1 }
    else none
  | .clientReturn => s.client.running.map fun id => { s with client := onReturned P s.client id }

/-- Fewer than 2^32 calls, and bodies that protobuf can read back, of the class the
    caller's types say. -/
def WellFormed (s : Net P) : NetEv P → Prop
  | .call kind body => s.calls.length + 1 < 2 ^ 32 ∧ kind ∈ noslatedRequestTypes ∧ P.typeOf body = .request kind ∧
      P.RoundTrips body
  | .answer n a => ∀ q ∈ s.served[n]?, (∀ m ∈ a.error, P.typeOf m = .errorResponse) ∧
      (∀ m ∈ a.resp, P.typeOf m = .response q.kind) ∧ P.RoundTrips (a.msg P q.kind)
  | _ => True

instance [DecidablePred P.RoundTrips] (s : Net P) : DecidablePred (WellFormed P s)
  | .call kind body => inferInstanceAs (Decidable (s.calls.length + 1 < 2 ^ 32 ∧ kind ∈ noslatedRequestTypes ∧
      P.typeOf body = .request kind ∧ P.RoundTrips body))
  | .answer n a => inferInstanceAs (Decidable (∀ q ∈ s.served[n]?, (∀ m ∈ a.error, P.typeOf m = .errorResponse) ∧
      (∀ m ∈ a.resp, P.typeOf m = .response q.kind) ∧ P.RoundTrips (a.msg P q.kind)))
  | .toServer _ => isTrue trivial
  | .serverImmediate => isTrue trivial
  | .serverIterate => isTrue trivial
  | .toClient _ => isTrue trivial
  | .clientImmediate => isTrue trivial
  | .clientIterate => isTrue trivial
  | .clientReturn => isTrue trivial

/-! ## The invariant -/

/-- Call number `n` on the wire, and as the service gets it. -/
def callSent (n : Nat) (c : RequestKind × P.Msg) : Sent P := ⟨.request, UInt32.ofNat n, c.1, c.2, .ok⟩

def callServed (n : Nat) (c : RequestKind × P.Msg) : Served P := ⟨UInt32.ofNat n, c.1, c.2⟩

/-- What the closure of call `x.n` is called with for the answer `x`. -/
def Answered.invocation (x : Answered P) : Invocation P Nat :=
  Ipc.invocation P x.id x.n x.answer.code (some (x.answer.msg P x.kind))

structure NetInv (s : Net P) : Prop where
  count : s.calls.length < 2 ^ 32
  seq : s.seq = UInt32.ofNat s.calls.length
  table : s.client.Ok
  requests : s.client.wrote = s.calls.mapIdx (callSent P)
  requestsOk : ∀ m ∈ s.client.wrote, m.Sendable
  up : Follows P s.serverRx s.client.wrote s.served.length
  served : s.served = (s.calls.take s.served.length).mapIdx (callServed P)
  responses : s.server.wrote = s.answers.map (Answered.sent P)
  responsesOk : ∀ m ∈ s.server.wrote, m.Sendable
  known : ∀ x ∈ s.answers, ∃ body, s.served[x.n]? = some ⟨x.id, x.kind, body⟩
  once : (s.answers.map Answered.n).Nodup
  down : Follows P s.clientRx s.server.wrote s.client.invoked.length
  invoked : s.client.invoked = (s.answers.take s.client.invoked.length).map (Answered.invocation P)
  waiting : ∀ n < s.calls.length, n ∉ s.client.invoked.map Invocation.cb → s.client.callbacks[UInt32.ofNat n]? = some n
  returning : ∀ id, s.client.running = some id → ∃ i ∈ s.client.invoked, id = UInt32.ofNat i.cb ∧ i.cb < s.calls.length
  stored : ∀ id ∈ s.client.callbacks, ∃ n < s.calls.length, id = UInt32.ofNat n

theorem ofNat_inj {a b : Nat} (ha : a < 2 ^ 32) (hb : b < 2 ^ 32) (h : UInt32.ofNat a = UInt32.ofNat b) : a = b := by
  have := congrArg UInt32.toNat h
  rwa [UInt32.toNat_ofNat_of_lt' ha, UInt32.toNat_ofNat_of_lt' hb] at this

theorem netInit_inv : NetInv P {} := by
  refine ⟨Nat.two_pow_pos 32, rfl, init_table P, rfl, ?_, init_follows P, rfl, rfl, ?_, ?_, ?_, init_follows P, rfl, ?_, ?_, ?_⟩ <;> simp

variable {s : Net P}

theorem served_le (hi : NetInv P s) : s.served.length ≤ s.calls.length := by
  have := hi.up.dispatched
  rwa [hi.requests, length_mapIdx] at this

variable {n : Nat}

theorem served_call (hi : NetInv P s) {q : Served P} (h : s.served[n]? = some q) :
    s.calls[n]? = some (q.kind, q.body) ∧ q.id = UInt32.ofNat n := by
  have hlt : n < s.served.length := (List.getElem?_eq_some_iff.mp h).1
  rw [hi.served, getElem?_mapIdx, getElem?_take_of_lt hlt] at h
  obtain ⟨c, hc, rfl⟩ := map_eq_some_iff.mp h
  exact ⟨hc, rfl⟩

/-! ## One event keeps it -/

variable {s' : Net P}

theorem call_inv {kind : RequestKind} {body : P.Msg} (hi : NetInv P s) (hw : WellFormed P s (.call kind body))
    (h : call P s kind body = some s') : NetInv P s' := by
  obtain ⟨hn, hk, ht, hrt⟩ := hw
  obtain ⟨d, hd, rfl⟩ := map_eq_some_iff.mp h
  have htab := request_table P hi.table hd
  obtain ⟨-, -, rfl⟩ := request_some P hd
  have hsent : (⟨.request, s.seq, kind, body, .ok⟩ : Sent P) = callSent P s.calls.length (kind, body) := by
    rw [hi.seq]; rfl
  have hle := served_le P hi
  refine ⟨?_, ?_, htab, ?_, ?_, write_follows P hi.up _, ?_, hi.responses, hi.responsesOk, hi.known, hi.once, hi.down,
    hi.invoked, ?_, ?_, ?_⟩
  · show (s.calls ++ [(kind, body)]).length < 2 ^ 32
    simp only [length_append, length_singleton]; exact hn
  · show s.seq + 1 = UInt32.ofNat (s.calls ++ [(kind, body)]).length
    rw [hi.seq]; simp
  · show s.client.wrote ++ [_] = (s.calls ++ [(kind, body)]).mapIdx (callSent P)
    rw [hsent, hi.requests, mapIdx_concat]
  · exact forall_mem_append.mpr ⟨hi.requestsOk, forall_mem_singleton.mpr ⟨hk, ht, hrt⟩⟩
  · show s.served = ((s.calls ++ [(kind, body)]).take s.served.length).mapIdx (callServed P)
    rw [take_append_of_le_length hle]; exact hi.served
  · intro n hlt hno
    have hlt : n < s.calls.length + 1 := by simpa using hlt
    show (s.client.callbacks.insert s.seq s.calls.length)[UInt32.ofNat n]? = some n
    by_cases he : n = s.calls.length
    · rw [hi.seq, he]; simp
    · have hne : s.seq ≠ UInt32.ofNat n := by
        rw [hi.seq]
        intro e
        exact he (ofNat_inj hi.count (by have := hi.count; omega) e).symm
      simp only [TreeMap.getElem?_insert, Std.LawfulEqOrd.compare_eq_iff_eq, hne, if_false]
      exact hi.waiting n (by omega) hno
  · intro id hid
    obtain ⟨i, him, rfl, hlt⟩ := hi.returning id hid
    refine ⟨i, him, rfl, ?_⟩
    show i.cb < (s.calls ++ [(kind, body)]).length
    simp; omega
  · intro id hid
    have hlen : (s.calls ++ [(kind, body)]).length = s.calls.length + 1 := by simp
    rcases TreeMap.mem_insert.mp hid with hid | hid
    · refine ⟨s.calls.length, by rw [hlen]; omega, ?_⟩
      rw [← hi.seq]; exact (Std.LawfulEqOrd.eq_of_compare hid).symm
    · obtain ⟨n, hn, rfl⟩ := hi.stored id hid
      exact ⟨n, by rw [hlen]; omega, rfl⟩

variable {a : Answer P}

theorem answer_inv (hi : NetInv P s) (hw : WellFormed P s (.answer n a))
    (h : answer P s n a = some s') : NetInv P s' := by
  unfold answer at h
  cases hq : s.served[n]? with
  | none => rw [hq] at h; cases h
  | some q =>
    rw [hq] at h
    simp only [ite_none_left_eq_some, Option.some.injEq] at h
    obtain ⟨hno, rfl⟩ := h
    obtain ⟨herr, hresp, hrt⟩ := hw q hq
    have hkind : q.kind ∈ noslatedRequestTypes := by
      obtain ⟨hc, -⟩ := served_call P hi hq
      have hm : s.client.wrote[n]? = some (callSent P n (q.kind, q.body)) := by
        rw [hi.requests, getElem?_mapIdx, hc]; rfl
      exact (hi.requestsOk _ (mem_of_getElem? hm)).known
    have htyped : P.typeOf (a.msg P q.kind) = bodyType .response q.kind a.code := by
      unfold Answer.msg bodyType
      by_cases hok : a.code = .ok
      · rw [if_neg (not_not.mpr hok), if_neg (not_not.mpr hok)]
        cases hr : a.resp with
        | none => exact P.typeOf_new _
        | some m => exact hresp m hr
      · rw [if_pos hok, if_pos hok]
        cases hr : a.error with
        | none => exact P.typeOf_new _
        | some m => exact herr m hr
    refine ⟨hi.count, hi.seq, hi.table, hi.requests, hi.requestsOk, hi.up, hi.served, ?_, ?_, ?_, ?_,
      write_follows P hi.down _, ?_, hi.waiting, hi.returning, hi.stored⟩
    · show s.server.wrote ++ [_] = (s.answers ++ [_]).map (Answered.sent P)
      rw [hi.responses, map_append]
      rfl
    · exact forall_mem_append.mpr ⟨hi.responsesOk, forall_mem_singleton.mpr ⟨hkind, htyped, hrt⟩⟩
    · exact forall_mem_append.mpr ⟨hi.known, forall_mem_singleton.mpr ⟨q.body, hq⟩⟩
    · rw [map_append, nodup_append]
      refine ⟨hi.once, by simp, ?_⟩
      intro k hk k' hk'
      rw [map_singleton, mem_singleton] at hk'
      rw [hk']
      rintro rfl
      exact hno hk
    · show s.client.invoked = ((s.answers ++ [_]).take s.client.invoked.length).map (Answered.invocation P)
      have hle : s.client.invoked.length ≤ s.answers.length := by
        have := hi.down.dispatched
        rwa [hi.responses, length_map] at this
      rw [take_append_of_le_length hle]; exact hi.invoked

variable {r : Reader P}

theorem serverRx_inv (hi : NetInv P s) (hr : Follows P r s.client.wrote s.served.length) :
    NetInv P { s with serverRx := r } :=
  ⟨hi.count, hi.seq, hi.table, hi.requests, hi.requestsOk, hr, hi.served, hi.responses, hi.responsesOk, hi.known, hi.once,
    hi.down, hi.invoked, hi.waiting, hi.returning, hi.stored⟩

theorem clientRx_inv (hi : NetInv P s) (hr : Follows P r s.server.wrote s.client.invoked.length) :
    NetInv P { s with clientRx := r } :=
  ⟨hi.count, hi.seq, hi.table, hi.requests, hi.requestsOk, hi.up, hi.served, hi.responses, hi.responsesOk, hi.known, hi.once,
    hr, hi.invoked, hi.waiting, hi.returning, hi.stored⟩

variable {m : Sent P}

theorem serverCall_eq (hi : NetInv P s) (hm : s.client.wrote[s.served.length]? = some m)
    (r : Reader P) : ∃ c, s.calls[s.served.length]? = some c ∧ serverCall P { s with serverRx := r } (m.frame P).call =
      { s with serverRx := r, served := s.served ++ [callServed P s.served.length c] } := by
  rw [frame_call P (hi.requestsOk m (mem_of_getElem? hm)).known]
  rw [hi.requests, getElem?_mapIdx] at hm
  obtain ⟨c, hc, rfl⟩ := map_eq_some_iff.mp hm
  exact ⟨c, hc, rfl⟩

theorem serve_inv (hi : NetInv P s) {c : RequestKind × P.Msg}
    (hc : s.calls[s.served.length]? = some c) (hr : Follows P r s.client.wrote (s.served.length + 1)) :
    NetInv P { s with serverRx := r, served := s.served ++ [callServed P s.served.length c] } := by
  refine ⟨hi.count, hi.seq, hi.table, hi.requests, hi.requestsOk, ?_, ?_, hi.responses, hi.responsesOk, ?_, hi.once,
    hi.down, hi.invoked, hi.waiting, hi.returning, hi.stored⟩
  · simpa using hr
  · have hlt : s.served.length < s.calls.length := (List.getElem?_eq_some_iff.mp hc).1
    have htake : s.calls.take (s.served.length + 1) = s.calls.take s.served.length ++ [c] := by
      rw [take_add_one, hc]; rfl
    have hlen : (s.calls.take s.served.length).length = s.served.length := by simp; omega
    simp only [length_append, length_singleton]
    rw [htake, mapIdx_concat, ← hi.served, hlen]
  · intro x hx
    obtain ⟨body, hb⟩ := hi.known x hx
    exact ⟨body, by rw [getElem?_append_left (List.getElem?_eq_some_iff.mp hb).1]; exact hb⟩

theorem invoked_calls (hi : NetInv P s) :
    s.client.invoked.map Invocation.cb = (s.answers.take s.client.invoked.length).map Answered.n := by
  have := congrArg (List.map Invocation.cb) hi.invoked
  rwa [List.map_map] at this

theorem clientCall_eq (hi : NetInv P s) (hrun : s.client.running = none)
    (hm : s.server.wrote[s.client.invoked.length]? = some m) (r : Reader P) :
    ∃ x d, s.answers[s.client.invoked.length]? = some x ∧ x.id = UInt32.ofNat x.n ∧ x.n < s.calls.length ∧
      s.client.callbacks[x.id]? = some x.n ∧
      Completes P s.client d x.id x.n x.answer.code (some (x.answer.msg P x.kind)) ∧
      clientCall P { s with clientRx := r } (m.frame P).call = { s with clientRx := r, client := d } := by
  rw [frame_call P (hi.responsesOk m (mem_of_getElem? hm)).known]
  rw [hi.responses, getElem?_map] at hm
  obtain ⟨x, hx, rfl⟩ := map_eq_some_iff.mp hm
  obtain ⟨body, hbody⟩ := hi.known x (mem_of_getElem? hx)
  obtain ⟨hcall, hid⟩ := served_call P hi hbody
  have hlt : x.n < s.calls.length := (List.getElem?_eq_some_iff.mp hcall).1
  have hid : x.id = UInt32.ofNat x.n := hid
  -- no answer before this one was for the same call
  have hfresh : x.n ∉ s.client.invoked.map Invocation.cb := by
    rw [invoked_calls P hi]
    intro hmem
    have hnd := hi.once
    rw [← take_append_drop s.client.invoked.length s.answers, map_append, nodup_append] at hnd
    have hdrop : x ∈ s.answers.drop s.client.invoked.length := by
      refine mem_of_mem_head? ?_
      rw [head?_drop, hx]; rfl
    exact hnd.2.2 x.n hmem x.n (List.mem_map.mpr ⟨x, hdrop, rfl⟩) rfl
  have hcb := hi.waiting x.n hlt hfresh
  rw [← hid] at hcb
  obtain ⟨t, ht⟩ := timer_of_callback P hi.table hrun hcb
  exact ⟨x, _, hx, hid, hlt, hcb, onResponse_completes P hcb ht x.answer.code (some (x.answer.msg P x.kind)), rfl⟩

variable {x : Answered P}

theorem complete_inv (hi : NetInv P s) (hrun : s.client.running = none)
    {d : Delegate P Nat} (hx : s.answers[s.client.invoked.length]? = some x) (hid : x.id = UInt32.ofNat x.n)
    (hlt : x.n < s.calls.length) (hcb : s.client.callbacks[x.id]? = some x.n)
    (hc : Completes P s.client d x.id x.n x.answer.code (some (x.answer.msg P x.kind)))
    (hr : Follows P r s.server.wrote (s.client.invoked.length + 1)) : NetInv P { s with clientRx := r, client := d } := by
  refine ⟨hi.count, hi.seq, completes_table P hi.table hrun hcb hc, ?_, ?_, ?_, hi.served, hi.responses, hi.responsesOk,
    hi.known, hi.once, ?_, ?_, ?_, ?_, by rw [hc.callbacks]; exact hi.stored⟩
  · rw [hc.wrote]; exact hi.requests
  · rw [hc.wrote]; exact hi.requestsOk
  · rw [hc.wrote]; exact hi.up
  · rw [hc.invoked]; simpa using hr
  · rw [hc.invoked]
    simp only [length_append, length_singleton]
    rw [take_add_one, hx, map_append, ← hi.invoked]
    rfl
  · intro n hn hno
    rw [hc.callbacks]
    refine hi.waiting n hn fun hmem => hno ?_
    rw [hc.invoked, map_append]
    exact mem_append_left _ hmem
  · intro id hid'
    rw [hc.running] at hid'
    obtain rfl := Option.some.inj hid'
    refine ⟨_, by rw [hc.invoked]; exact mem_append_right _ (mem_singleton.mpr rfl), hid, hlt⟩

theorem return_inv (hi : NetInv P s) {id : RequestId} (hrun : s.client.running = some id) :
    NetInv P { s with client := onReturned P s.client id } := by
  refine ⟨hi.count, hi.seq, onReturned_table P hi.table hrun, hi.requests, hi.requestsOk, hi.up, hi.served, hi.responses,
    hi.responsesOk, hi.known, hi.once, hi.down, hi.invoked, ?_, fun id h => (by cases h),
    fun id h => hi.stored id (TreeMap.mem_of_mem_erase h)⟩
  intro n hn hno
  have hn : n < s.calls.length := hn
  obtain ⟨i, him, rfl, hlt⟩ := hi.returning id hrun
  have hne : UInt32.ofNat i.cb ≠ UInt32.ofNat n := by
    intro e
    have hcount := hi.count
    have := ofNat_inj (by omega) (by omega) e
    exact hno (List.mem_map.mpr ⟨i, him, this⟩)
  show (s.client.callbacks.erase (UInt32.ofNat i.cb))[UInt32.ofNat n]? = some n
  simp only [TreeMap.getElem?_erase, Std.LawfulEqOrd.compare_eq_iff_eq, hne, if_false]
  exact hi.waiting n hn hno

variable {e : NetEv P}

theorem netStep_inv (hi : NetInv P s) (hw : WellFormed P s e) (h : netStep P s e = some s') : NetInv P s' := by
  cases e with
  | call kind body => exact call_inv P hi hw h
  | answer n a => exact answer_inv P hi hw h
  | toServer n =>
    obtain ⟨r, hr, rfl⟩ := map_eq_some_iff.mp h
    exact serverRx_inv P hi (receive_follows P hi.up hr)
  | serverImmediate =>
    obtain ⟨r, hr, rfl⟩ := map_eq_some_iff.mp h
    exact serverRx_inv P hi (beginRead_follows P hi.up hr)
  | serverIterate =>
    obtain ⟨⟨r, out⟩, hr, rfl⟩ := map_eq_some_iff.mp h
    rcases iterate_follows P hi.requestsOk hi.up hr with ⟨rfl, -, hf⟩ | ⟨m, hm, rfl, hf⟩
    · exact serverRx_inv P hi hf
    · obtain ⟨c, hc, he⟩ := serverCall_eq P hi hm r
      show NetInv P (serverCall P { s with serverRx := r } (m.frame P).call)
      rw [he]
      exact serve_inv P hi hc hf
  | toClient n =>
    obtain ⟨r, hr, rfl⟩ := map_eq_some_iff.mp h
    exact clientRx_inv P hi (receive_follows P hi.down hr)
  | clientImmediate =>
    obtain ⟨r, hr, rfl⟩ := map_eq_some_iff.mp h
    exact clientRx_inv P hi (beginRead_follows P hi.down hr)
  | clientIterate =>
    simp only [netStep, ite_none_right_eq_some] at h
    obtain ⟨hrun, h⟩ := h
    obtain ⟨⟨r, out⟩, hr, rfl⟩ := map_eq_some_iff.mp h
    rcases iterate_follows P hi.responsesOk hi.down hr with ⟨rfl, -, hf⟩ | ⟨m, hm, rfl, hf⟩
    · exact clientRx_inv P hi hf
    · obtain ⟨x, d, hx, hid, hlt, hcb, hc, he⟩ := clientCall_eq P hi hrun hm r
      show NetInv P (clientCall P { s with clientRx := r } (m.frame P).call)
      rw [he]
      exact complete_inv P hi hrun hx hid hlt hcb hc hf
  | clientReturn =>
    obtain ⟨id, hid, rfl⟩ := map_eq_some_iff.mp h
    exact return_inv P hi hid

/-- `SetCallback`'s checks pass for every new call. -/
theorem call_accepted (hi : NetInv P s) (kind : RequestKind) (body : P.Msg) :
    (netStep P s (.call kind body)).isSome := by
  have hc : s.seq ∉ s.client.callbacks := by
    intro hm
    obtain ⟨n, hn, he⟩ := hi.stored _ hm
    rw [hi.seq] at he
    have := ofNat_inj hi.count (by have := hi.count; omega) he
    omega
  have ht : s.seq ∉ s.client.timers := fun hm => hc ((hi.table.keys _).mpr (Or.inl hm))
  simp [netStep, call, request, setTimeout, setCallback, hc, ht]

theorem net_inv {evs : List (NetEv P)} (hr : run (netStep P) {} evs = some s)
    (hw : Along (netStep P) (WellFormed P) {} evs) : NetInv P s :=
  run_inv (fun _ _ _ hi hq h => netStep_inv P hi hq h) (netInit_inv P) hw hr

/-! ## Whatever is begun ends -/

/-- Nothing in flight, nothing to read, no callback on the stack and no request unanswered. -/
structure Net.Quiet (s : Net P) : Prop where
  up : s.serverRx.Quiet P s.client.wrote
  down : s.clientRx.Quiet P s.server.wrote
  returned : s.client.running = none
  answered : ∀ n < s.served.length, n ∈ s.answers.map Answered.n

/-- Everything but a new call and an empty chunk. -/
def NetEv.Work : NetEv P → Prop
  | .call _ _ => False
  | .toServer n => 0 < n
  | .toClient n => 0 < n
  | _ => True

theorem net_progress (hq : ¬ s.Quiet P) : ∃ e : NetEv P, e.Work ∧ (netStep P s e).isSome := by
  by_cases hup : s.serverRx.Quiet P s.client.wrote
  · by_cases hret : s.client.running = none
    · by_cases hdown : s.clientRx.Quiet P s.server.wrote
      · -- a request has not been answered
        have hno : ¬ ∀ n < s.served.length, n ∈ s.answers.map Answered.n := fun h => hq ⟨hup, hdown, hret, h⟩
        simp only [not_forall] at hno
        obtain ⟨n, hn, hno⟩ := hno
        refine ⟨.answer n ⟨.ok, none, none⟩, trivial, ?_⟩
        simp [netStep, answer, getElem?_eq_getElem hn, hno]
      · rcases reader_progress P hdown with h | h | h
        · exact ⟨.toClient 1, Nat.one_pos, by simpa [netStep] using h⟩
        · exact ⟨.clientImmediate, trivial, by simpa [netStep] using h⟩
        · exact ⟨.clientIterate, trivial, by simpa [netStep, hret] using h⟩
    · refine ⟨.clientReturn, trivial, ?_⟩
      simpa [netStep, isSome_iff_ne_none] using hret
  · rcases reader_progress P hup with h | h | h
    · exact ⟨.toServer 1, Nat.one_pos, by simpa [netStep] using h⟩
    · exact ⟨.serverImmediate, trivial, by simpa [netStep] using h⟩
    · exact ⟨.serverIterate, trivial, by simpa [netStep] using h⟩

/-- Answers to come; then bytes to deliver; then reading and returning to do. -/
def Net.todo (s : Net P) : Nat × Nat × Nat :=
  (s.calls.length - s.answers.length,
    (inFlight P s.serverRx s.client.wrote).length + (inFlight P s.clientRx s.server.wrote).length,
    (s.client.wrote.length - s.served.length) + s.serverRx.due + 2 * (s.server.wrote.length - s.client.invoked.length) +
      s.clientRx.due + s.client.running.isSome.toNat)

def Less : Nat × Nat × Nat → Nat × Nat × Nat → Prop := Prod.Lex (· < ·) (Prod.Lex (· < ·) (· < ·))

theorem less_wf : WellFounded Less :=
  WellFounded.prod_lex Nat.lt_wfRel.wf (WellFounded.prod_lex Nat.lt_wfRel.wf Nat.lt_wfRel.wf)

theorem answers_lt (hi : NetInv P s) (hn : n < s.served.length) (hno : n ∉ s.answers.map Answered.n) :
    s.answers.length < s.calls.length := by
  have hsub : n :: s.answers.map Answered.n ⊆ List.range s.served.length := by
    intro k hk
    rcases mem_cons.mp hk with rfl | hk
    · exact mem_range.mpr hn
    · obtain ⟨x, hx, rfl⟩ := List.mem_map.mp hk
      obtain ⟨body, hb⟩ := hi.known x hx
      exact mem_range.mpr (List.getElem?_eq_some_iff.mp hb).1
  have hlen := (subperm_of_subset (nodup_cons.mpr ⟨hno, hi.once⟩) hsub).length_le
  have := served_le P hi
  simp at hlen
  omega

theorem less_of_reading (hc : s'.calls = s.calls) (ha : s'.answers = s.answers)
    (hup : inFlight P s'.serverRx s'.client.wrote = inFlight P s.serverRx s.client.wrote)
    (hdown : inFlight P s'.clientRx s'.server.wrote = inFlight P s.clientRx s.server.wrote)
    (h : (s'.todo P).2.2 < (s.todo P).2.2) : Less (s'.todo P) (s.todo P) := by
  have h1 : (s'.todo P).1 = (s.todo P).1 := by simp only [Net.todo, hc, ha]
  have h2 : (s'.todo P).2.1 = (s.todo P).2.1 := by simp only [Net.todo, hup, hdown]
  rw [show s'.todo P = ((s.todo P).1, (s.todo P).2.1, (s'.todo P).2.2) by rw [← h1, ← h2]]
  exact Prod.Lex.right _ (Prod.Lex.right _ h)

theorem inFlight_congr {r' : Reader P} (h : r'.delivered = r.delivered) (msgs : List (Sent P)) :
    inFlight P r' msgs = inFlight P r msgs := by
  unfold inFlight; rw [h]

theorem answer_less (hi : NetInv P s) (h : netStep P s (.answer n a) = some s') : Less (s'.todo P) (s.todo P) := by
  simp only [netStep, answer] at h
  cases hq : s.served[n]? with
  | none => rw [hq] at h; cases h
  | some q =>
    rw [hq] at h
    simp only [ite_none_left_eq_some, Option.some.injEq] at h
    obtain ⟨hno, rfl⟩ := h
    have hlt := answers_lt P hi (List.getElem?_eq_some_iff.mp hq).1 hno
    apply Prod.Lex.left
    show s.calls.length - (s.answers ++ [_]).length < s.calls.length - s.answers.length
    simp only [length_append, length_singleton]
    omega

theorem serverIterate_less (hi : NetInv P s) (h : netStep P s .serverIterate = some s') :
    Less (s'.todo P) (s.todo P) := by
  obtain ⟨⟨r, out⟩, hr, rfl⟩ := map_eq_some_iff.mp h
  obtain ⟨hle, hstop, hdel⟩ := iterate_due P hr
  rcases iterate_follows P hi.requestsOk hi.up hr with ⟨rfl, hread, -⟩ | ⟨m, hm, rfl, hf⟩
  · have := hstop hread
    refine less_of_reading P rfl rfl (inFlight_congr P hdel _) rfl ?_
    simp only [Net.todo, map_nil, foldl_nil]
    omega
  · obtain ⟨c, hc, he⟩ := serverCall_eq P hi hm r
    have hlt := (List.getElem?_eq_some_iff.mp hm).1
    show Less ((serverCall P { s with serverRx := r } (m.frame P).call).todo P) _
    rw [he]
    refine less_of_reading P rfl rfl (inFlight_congr P hdel _) rfl ?_
    simp only [Net.todo, length_append, length_singleton]
    omega

theorem clientIterate_less (hi : NetInv P s) (h : netStep P s .clientIterate = some s') :
    Less (s'.todo P) (s.todo P) := by
  simp only [netStep, ite_none_right_eq_some] at h
  obtain ⟨hrun, h⟩ := h
  obtain ⟨⟨r, out⟩, hr, rfl⟩ := map_eq_some_iff.mp h
  obtain ⟨hle, hstop, hdel⟩ := iterate_due P hr
  rcases iterate_follows P hi.responsesOk hi.down hr with ⟨rfl, hread, -⟩ | ⟨m, hm, rfl, hf⟩
  · have := hstop hread
    refine less_of_reading P rfl rfl rfl (inFlight_congr P hdel _) ?_
    simp only [Net.todo, map_nil, foldl_nil]
    omega
  · obtain ⟨x, d, -, -, -, -, hc, he⟩ := clientCall_eq P hi hrun hm r
    have hlt := (List.getElem?_eq_some_iff.mp hm).1
    show Less ((clientCall P { s with clientRx := r } (m.frame P).call).todo P) _
    rw [he]
    refine less_of_reading P rfl rfl ?_ (inFlight_congr P hdel _) ?_
    · simp only [hc.wrote]
    · simp only [Net.todo, hc.wrote, hc.invoked, hc.running, hrun, length_append, length_singleton,
        isSome_some, isSome_none, Bool.toNat_true, Bool.toNat_false]
      omega

theorem work_less (hi : NetInv P s) (hw : e.Work) (h : netStep P s e = some s') : Less (s'.todo P) (s.todo P) := by
  cases e with
  | call kind body => exact absurd hw (by simp [NetEv.Work])
  | answer n a => exact answer_less P hi h
  | toServer n =>
    obtain ⟨r, hr, rfl⟩ := map_eq_some_iff.mp h
    have := receive_inFlight P hr
    have hn : 0 < n := hw
    refine Prod.Lex.right _ (Prod.Lex.left _ _ (Nat.add_lt_add_right ?_ _))
    show (inFlight P r s.client.wrote).length < (inFlight P s.serverRx s.client.wrote).length
    omega
  | toClient n =>
    obtain ⟨r, hr, rfl⟩ := map_eq_some_iff.mp h
    have := receive_inFlight P hr
    have hn : 0 < n := hw
    refine Prod.Lex.right _ (Prod.Lex.left _ _ (Nat.add_lt_add_left ?_ _))
    show (inFlight P r s.server.wrote).length < (inFlight P s.clientRx s.server.wrote).length
    omega
  | serverImmediate =>
    obtain ⟨r, hr, rfl⟩ := map_eq_some_iff.mp h
    obtain ⟨hdue, hdel⟩ := beginRead_due P hr
    refine less_of_reading P rfl rfl (inFlight_congr P hdel _) rfl ?_
    simp only [Net.todo]
    omega
  | clientImmediate =>
    obtain ⟨r, hr, rfl⟩ := map_eq_some_iff.mp h
    obtain ⟨hdue, hdel⟩ := beginRead_due P hr
    refine less_of_reading P rfl rfl rfl (inFlight_congr P hdel _) ?_
    simp only [Net.todo]
    omega
  | serverIterate => exact serverIterate_less P hi h
  | clientIterate => exact clientIterate_less P hi h
  | clientReturn =>
    obtain ⟨id, hid, rfl⟩ := map_eq_some_iff.mp h
    refine less_of_reading P rfl rfl rfl rfl ?_
    simp only [Net.todo, onReturned, hid, isSome_some, isSome_none, Bool.toNat_true, Bool.toNat_false]
    omega

/-- `s'` follows `s` by a step of work. -/
def WorksTo (s' s : Net P) : Prop := ∃ e : NetEv P, e.Work ∧ WellFormed P s e ∧ netStep P s e = some s'

theorem work_ends (hi : NetInv P s) : Acc (WorksTo P) s := by
  induction h : s.todo P using less_wf.induction generalizing s with
  | _ x ih =>
    subst h
    refine Acc.intro s ?_
    rintro s' ⟨e, hwork, hw, hs⟩
    exact ih _ (work_less P hi hwork hs) (netStep_inv P hi hw hs) rfl

/-! ## Every call gets its own answer -/

/-- The closure of call `x.n` is called with the answer `x`: the code, and the response or
    the error, of the class it is cast to, an empty one where the service gave none. -/
structure Delivers (x : Answered P) (i : Invocation P Nat) : Prop where
  call : i.cb = x.n
  code : i.code = x.answer.code
  resp : x.answer.code = .ok → i.error = none ∧ i.body = some (x.answer.resp.getD (P.new (.response x.kind)))
  error : x.answer.code ≠ .ok → i.body = none ∧ i.error = some (x.answer.error.getD (P.new .errorResponse))
  castResp : ∀ m, i.body = some m → P.typeOf m = .response x.kind
  castError : ∀ m, i.error = some m → P.typeOf m = .errorResponse

theorem invocation_delivers (hi : NetInv P s) (hx : x ∈ s.answers) : Delivers P x (x.invocation P) := by
  have hsend : (x.sent P).Sendable := hi.responsesOk _ (by rw [hi.responses]; exact List.mem_map.mpr ⟨x, hx, rfl⟩)
  have htyped : P.typeOf (x.answer.msg P x.kind) = bodyType .response x.kind x.answer.code := hsend.typed
  unfold bodyType at htyped
  by_cases hok : x.answer.code = .ok
  · rw [if_neg (not_not.mpr hok)] at htyped
    refine ⟨rfl, rfl, fun _ => ?_, fun h => absurd hok h, ?_, ?_⟩
    · simp [Answered.invocation, invocation, hok, Answer.msg]
    · intro m hm
      simp only [Answered.invocation, invocation, hok, if_true, Option.some.injEq] at hm
      rw [← hm]; exact htyped
    · intro m hm
      simp [Answered.invocation, invocation, hok] at hm
  · rw [if_pos hok] at htyped
    refine ⟨rfl, rfl, fun h => absurd h hok, fun _ => ?_, ?_, ?_⟩
    · simp [Answered.invocation, invocation, hok, Answer.msg]
    · intro m hm
      simp [Answered.invocation, invocation, hok] at hm
    · intro m hm
      simp only [Answered.invocation, invocation, ne_eq, hok, not_false_eq_true, if_true, Option.some.injEq] at hm
      rw [← hm]; exact htyped

theorem served_map (hi : NetInv P s) : s.served.map (fun q => (q.kind, q.body)) = s.calls.take s.served.length := by
  rw [congrArg (List.map fun q : Served P => (q.kind, q.body)) hi.served]
  refine ext_getElem? fun n => ?_
  rw [getElem?_map, getElem?_mapIdx]
  cases (s.calls.take s.served.length)[n]? <;> rfl

/-- Every run with fewer than 2^32 calls and with bodies that survive protobuf. The service
    has got the calls made so far up to some point, in order and unchanged. A closure was
    called at most once, and with the answer to its own call. A further call is accepted.
    Work in progress comes to an end; when none is left the service has got all calls and
    every closure was called. -/
theorem rpc_answers {s : Net P} {evs : List (NetEv P)} (hr : run (netStep P) {} evs = some s)
    (hw : Along (netStep P) (WellFormed P) {} evs) :
    s.served.map (fun q => (q.kind, q.body)) <+: s.calls ∧
    (∀ i ∈ s.client.invoked, ∃ x ∈ s.answers, Delivers P x i ∧ ∃ body, s.calls[x.n]? = some (x.kind, body)) ∧
    (s.client.invoked.map Invocation.cb).Nodup ∧ (∀ kind body, (netStep P s (.call kind body)).isSome) ∧
    Acc (WorksTo P) s ∧ (¬ s.Quiet P → ∃ e : NetEv P, e.Work ∧ (netStep P s e).isSome) ∧
    (s.Quiet P → s.served.map (fun q => (q.kind, q.body)) = s.calls ∧
      ∀ n < s.calls.length, ∃ x ∈ s.answers, x.n = n ∧ ∃ i, Delivers P x i ∧ s.client.invoked.filter (fun i => i.cb = n) = [i]) := by
  have hi := net_inv P hr hw
  refine ⟨?_, ?_, ?_, call_accepted P hi, work_ends P hi, net_progress P, ?_⟩
  · rw [served_map P hi]; exact take_prefix _ _
  · intro i him
    rw [hi.invoked] at him
    obtain ⟨x, hx, rfl⟩ := List.mem_map.mp him
    have hx := mem_of_mem_take hx
    obtain ⟨body, hb⟩ := hi.known x hx
    exact ⟨x, hx, invocation_delivers P hi hx, body, (served_call P hi hb).1⟩
  · rw [invoked_calls P hi, map_take]
    exact hi.once.sublist (take_sublist _ _)
  · intro hq
    have hserved : s.served.length = s.calls.length := by
      have := quiet_all P hi.requestsOk hi.up hq.up
      rwa [hi.requests, length_mapIdx] at this
    have hall : s.client.invoked = s.answers.map (Answered.invocation P) := by
      have hlen := quiet_all P hi.responsesOk hi.down hq.down
      rw [hi.responses, length_map] at hlen
      have := hi.invoked
      rwa [hlen, take_length] at this
    refine ⟨?_, ?_⟩
    · rw [served_map P hi, hserved, take_length]
    · intro n hn
      obtain ⟨x, hx, hxn⟩ := List.mem_map.mp (hq.answered n (by omega))
      refine ⟨x, hx, hxn, _, invocation_delivers P hi hx, ?_⟩
      have hone : s.answers.filter (fun y => y.n = n) = [x] := by
        rw [← hxn]; exact filter_key hi.once hx
      rw [hall, List.filter_map, show s.answers.filter ((fun i => decide (i.cb = n)) ∘ Answered.invocation P) = [x] from hone]
      rfl

/-- Two calls, delivered in two parts; the second is answered first, with an error and no
    message, the first with a response; both answers come back in one chunk. -/
def twoCalls : List (NetEv .plain) :=
  [.call .fetch (.request .fetch, [1, 2]), .call .streamOpen (.request .streamOpen, []),
    .toServer 30, .serverImmediate, .serverIterate, .serverIterate, .toServer 22, .serverImmediate, .serverIterate, .serverIterate,
    .answer 1 ⟨.clientError, none, none⟩, .answer 0 ⟨.ok, none, some (.response .fetch, [3])⟩,
    .toClient 51, .clientImmediate, .clientIterate, .clientReturn, .clientIterate, .clientReturn, .clientIterate]

theorem rpc_answers_two : ∃ s, run (netStep .plain) {} twoCalls = some s ∧
    s.client.invoked = [⟨1, 1, .clientError, some (.errorResponse, []), none⟩, ⟨0, 0, .ok, none, some (.response .fetch, [3])⟩] ∧
    (s.client.invoked.map Invocation.cb).Nodup :=
  ⟨_, rfl, rfl, (rpc_answers .plain (show run (netStep .plain) {} twoCalls = some _ from rfl) (by decide)).2.2.1⟩

end Aworker.Ipc
