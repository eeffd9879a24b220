/-
  Aworker.Ipc.Delegate — the calls a socket's delegate has open
  (src/ipc/ipc_delegate_impl.cc: `DelegateImpl`).

  `Request` arms a timer, stores the callback and the timer under the request's id, and
  writes the request. A response, or the timer, takes the timer off and calls the
  callback; its entry is erased only after the callback has returned (`running` is the
  call on the stack, which may issue further Requests). The destructor clears the timers
  and calls what is left. `CHECK` stops the process: that step is refused.

  Proved, over every run of the delegate:
  - `step_ok`: the two maps agree outside a callback, and exactly the timers they hold
    are armed.
  - `step_tracks`: one step completes a Request exactly if it is the Request's response,
    its timer or the destruction (`completion`).
  Also `pending_table`.
-/

import Aworker.Lib.Run
import Aworker.Lib.Map
import Aworker.Ipc.Socket

namespace Aworker.Ipc

open Std (TreeMap)
open Aworker.Lib (run run_cons run_append run_history toList_filter_key foldl_erase insert_get erase_get mem_of_get get_of_mem)

variable (P : Protobuf) {κ : Type}

/-! ## Operations -/

/-- The arguments of `DelegateImpl::Request`; the callback is not an empty function. -/
structure Request (κ : Type) where
  id : RequestId
  kind : RequestKind
  body : P.Msg
  cb : κ

/-- One call of a callback: the code, and the error or the body that comes with it. -/
structure Invocation (κ : Type) where
  id : RequestId
  cb : κ
  code : CanonicalCode
  error : Option P.Msg
  body : Option P.Msg

structure Delegate (κ : Type) where
  callbacks : TreeMap RequestId κ := ∅
  timers : TreeMap RequestId Nat := ∅
  /-- the loop's timers (numbered) that can still fire, with the id their closure captured -/
  armed : TreeMap Nat RequestId := ∅
  nextTimer : Nat := 0
  /-- the response whose callback is on the stack -/
  running : Option RequestId := none
  destroyed : Bool := false
  /-- what was written to the socket, and which callbacks were called -/
  wrote : List (Sent P) := []
  invoked : List (Invocation P κ) := []

/-- What a response hands to a callback: an error body with a code other than OK. -/
def invocation (id : RequestId) (cb : κ) (code : CanonicalCode) (body : Option P.Msg) : Invocation P κ :=
  ⟨id, cb, code, if code ≠ .ok then body else none, if code = .ok then body else none⟩

/-- `EventLoop::SetTimeout` -/
def setTimeout (d : Delegate P κ) (id : RequestId) : Nat × Delegate P κ :=
  (d.nextTimer, { d with armed := d.armed.insert d.nextTimer id, nextTimer := d.nextTimer + 1 })

def setCallback (d : Delegate P κ) (id : RequestId) (cb : κ) (timer : Nat) : Option (Delegate P κ) :=
  if id ∈ d.callbacks then none
  else if id ∈ d.timers then none
  else some { d with callbacks := d.callbacks.insert id cb, timers := d.timers.insert id timer }

/-- `socket`: whether `socket()` is there. Without it the callback is dropped. -/
def request (d : Delegate P κ) (socket : Bool) (r : Request P κ) : Option (Delegate P κ) :=
  if socket then
    let (timer, d) := setTimeout P d r.id
    (setCallback P d r.id r.cb timer).map fun d => { d with wrote := d.wrote ++ [⟨.request, r.id, r.kind, r.body, .ok⟩] }
  else some d

/-- `loop_->ClearTimeout(timer_it->second); timers_.erase(timer_it);` -/
def clearTimeout (d : Delegate P κ) (id : RequestId) : Delegate P κ :=
  match d.timers[id]? with
  | some t => { d with armed := d.armed.erase t, timers := d.timers.erase id }
  | none => d

/-- `OnResponse`, up to the call of the callback. -/
def onResponse (d : Delegate P κ) (id : RequestId) (code : CanonicalCode) (body : Option P.Msg) : Delegate P κ :=
  match d.callbacks[id]? with
  | none => d
  | some cb =>
    let d := clearTimeout P d id
    { d with invoked := d.invoked ++ [invocation P id cb code body], running := some id }

/-- `OnResponse`, from the callback's return on. -/
def onReturned (d : Delegate P κ) (id : RequestId) : Delegate P κ :=
  { d with callbacks := d.callbacks.erase id, running := none }

/-- The timer's closure; a timer fires once. -/
def onTimeout (d : Delegate P κ) (t : Nat) (id : RequestId) : Delegate P κ :=
  onResponse P { d with armed := d.armed.erase t } id .timeout none

/-- `~DelegateImpl`; `socket()` is the base class's by then, so a Request made by one of
    these callbacks does nothing. -/
def destroy (d : Delegate P κ) : Delegate P κ :=
  { d with
    armed := (d.timers.toList.map Prod.snd).foldl TreeMap.erase d.armed
    timers := ∅
    callbacks := ∅
    invoked := d.invoked ++ d.callbacks.toList.map fun p => invocation P p.1 p.2 .connectionReset none
    destroyed := true }

structure Answer where
  code : CanonicalCode
  error : Option P.Msg
  resp : Option P.Msg

/-- An absent message is written as an empty one. -/
def Answer.msg (a : Answer P) (kind : RequestKind) : P.Msg :=
  if a.code ≠ .ok then a.error.getD (P.new .errorResponse) else a.resp.getD (P.new (.response kind))

/-- The closure `OnRequest` hands to the service, called. -/
def respond (d : Delegate P κ) (socket : Bool) (id : RequestId) (kind : RequestKind) (a : Answer P) : Delegate P κ :=
  if socket then { d with wrote := d.wrote ++ [⟨.response, id, kind, a.msg P kind, a.code⟩] } else d

/-- The loop is single threaded: responses, timers and the destructor do not run inside a
    callback, Requests may. -/
inductive DelegateEv (κ : Type) where
  | request (r : Request P κ)
  | response (id : RequestId) (code : CanonicalCode) (body : Option P.Msg)
  | returned
  | expire (t : Nat)
  | destroy

def delegateStep (d : Delegate P κ) (e : DelegateEv P κ) : Option (Delegate P κ) :=
  if d.destroyed then none
  else match e with
    | .request r => request P d true r
    | .response id code body => if d.running = none then some (onResponse P d id code body) else none
    | .returned => d.running.map (onReturned P d)
    | .expire t => if d.running = none then (d.armed[t]?).map (onTimeout P d t) else none
    | .destroy => if d.running = none then some (destroy P d) else none

/-! ## What a step does -/

/-- The two maps hold the same ids, but for the response whose callback is on the stack;
    the armed timers are those of the map. -/
structure Delegate.Ok (d : Delegate P κ) : Prop where
  armed : ∀ (t : Nat) (id : RequestId), d.armed[t]? = some id ↔ d.timers[id]? = some t
  armedLt : ∀ (t : Nat) (id : RequestId), d.armed[t]? = some id → t < d.nextTimer
  keys : ∀ id, id ∈ d.callbacks ↔ id ∈ d.timers ∨ d.running = some id
  running : ∀ id, d.running = some id → id ∉ d.timers

/-- Request `id` is completed from `d` to `d'`, and its callback is on the stack. -/
structure Completes (d d' : Delegate P κ) (id : RequestId) (cb : κ) (code : CanonicalCode) (body : Option P.Msg) : Prop where
  callbacks : d'.callbacks = d.callbacks
  timers : d'.timers = d.timers.erase id
  armed : ∀ t : Nat, d'.armed[t]? = if d.timers[id]? = some t then none else d.armed[t]?
  nextTimer : d'.nextTimer = d.nextTimer
  running : d'.running = some id
  destroyed : d'.destroyed = d.destroyed
  invoked : d'.invoked = d.invoked ++ [invocation P id cb code body]
  wrote : d'.wrote = d.wrote

variable {d d' : Delegate P κ} {r : Request P κ}

theorem request_some (h : request P d true r = some d') : r.id ∉ d.callbacks ∧ r.id ∉ d.timers ∧ d' = { d with
      callbacks := d.callbacks.insert r.id r.cb
      timers := d.timers.insert r.id d.nextTimer
      armed := d.armed.insert d.nextTimer r.id
      nextTimer := d.nextTimer + 1
      wrote := d.wrote ++ [⟨.request, r.id, r.kind, r.body, .ok⟩] } := by
  simp only [request, setTimeout, setCallback, if_true] at h
  by_cases hc : r.id ∈ d.callbacks
  · simp [hc] at h
  by_cases ht : r.id ∈ d.timers
  · simp [hc, ht] at h
  simp only [hc, ht, if_false, Option.map_some, Option.some.injEq] at h
  exact ⟨hc, ht, h.symm⟩

theorem request_noSocket (d : Delegate P κ) (r : Request P κ) : request P d false r = some d := rfl

variable {id : RequestId} {cb : κ}

theorem timer_of_callback (hok : d.Ok) (hrun : d.running = none)
    (hcb : d.callbacks[id]? = some cb) : ∃ t : Nat, d.timers[id]? = some t := by
  have hmem : id ∈ d.callbacks := mem_of_get hcb
  rcases (hok.keys id).mp hmem with ht | hr
  · exact get_of_mem ht
  · rw [hrun] at hr; cases hr

variable {t : Nat}

theorem callback_of_armed (hok : d.Ok) (h : d.armed[t]? = some id) :
    ∃ cb, d.callbacks[id]? = some cb ∧ d.timers[id]? = some t := by
  have ht := (hok.armed t id).mp h
  obtain ⟨cb, hcb⟩ := get_of_mem ((hok.keys id).mpr (Or.inl (mem_of_get ht)))
  exact ⟨cb, hcb, ht⟩

theorem onResponse_completes (hcb : d.callbacks[id]? = some cb)
    (ht : d.timers[id]? = some t) (code : CanonicalCode) (body : Option P.Msg) :
    Completes P d (onResponse P d id code body) id cb code body := by
  have h : onResponse P d id code body = { d with
      armed := d.armed.erase t, timers := d.timers.erase id
      invoked := d.invoked ++ [invocation P id cb code body], running := some id } := by
    simp [onResponse, hcb, clearTimeout, ht]
  rw [h]
  refine ⟨rfl, rfl, fun t' => ?_, rfl, rfl, rfl, rfl, rfl⟩
  show (d.armed.erase t)[t']? = _
  by_cases he : t = t'
  · simp [ht, he]
  · simp [ht, he, TreeMap.getElem?_erase]

theorem onTimeout_completes (hcb : d.callbacks[id]? = some cb)
    (ht : d.timers[id]? = some t) : Completes P d (onTimeout P d t id) id cb .timeout none := by
  have h := onResponse_completes P (d := { d with armed := d.armed.erase t }) hcb ht .timeout none
  refine ⟨h.callbacks, h.timers, fun t' => ?_, h.nextTimer, h.running, h.destroyed, h.invoked, h.wrote⟩
  show (onResponse P { d with armed := d.armed.erase t } id .timeout none).armed[t']? = _
  rw [h.armed]
  by_cases he : t = t'
  · simp [ht, he]
  · simp [ht, he, TreeMap.getElem?_erase]

variable {e : DelegateEv P κ}

/-- A step is a Request, the completion of an open call, a response to no open call, the
    return of a callback, or the destruction. -/
theorem delegateStep_cases (hok : d.Ok) (h : delegateStep P d e = some d') :
    (∃ r, e = .request r ∧ request P d true r = some d') ∨
    (∃ (id : RequestId) (t : Nat) (cb : κ) (code : CanonicalCode) (body : Option P.Msg), d.running = none ∧
      d.callbacks[id]? = some cb ∧ d.timers[id]? = some t ∧ Completes P d d' id cb code body ∧
      (e = .response id code body ∨ e = .expire t ∧ code = .timeout ∧ body = none)) ∨
    (∃ (id : RequestId) (code : CanonicalCode) (body : Option P.Msg), e = .response id code body ∧
      d.running = none ∧ d.callbacks[id]? = none ∧ d' = d) ∨
    (∃ id, e = .returned ∧ d.running = some id ∧ d' = onReturned P d id) ∨
    (e = .destroy ∧ d.running = none ∧ d' = destroy P d) := by
  unfold delegateStep at h
  by_cases hd : d.destroyed = true
  · simp [hd] at h
  rw [if_neg hd] at h
  cases e with
  | request r => exact Or.inl ⟨r, rfl, h⟩
  | response id code body =>
    simp only [Option.ite_none_right_eq_some, Option.some.injEq] at h
    obtain ⟨hrun, rfl⟩ := h
    cases hcb : d.callbacks[id]? with
    | none => exact Or.inr (Or.inr (Or.inl ⟨id, code, body, rfl, hrun, hcb, by simp [onResponse, hcb]⟩))
    | some cb =>
      obtain ⟨t, ht⟩ := timer_of_callback P hok hrun hcb
      exact Or.inr (Or.inl ⟨id, t, cb, code, body, hrun, hcb, ht, onResponse_completes P hcb ht code body, Or.inl rfl⟩)
  | returned =>
    obtain ⟨id, hid, rfl⟩ := Option.map_eq_some_iff.mp h
    exact Or.inr (Or.inr (Or.inr (Or.inl ⟨id, rfl, hid, rfl⟩)))
  | expire t =>
    simp only [Option.ite_none_right_eq_some] at h
    obtain ⟨hrun, h⟩ := h
    obtain ⟨id, hid, rfl⟩ := Option.map_eq_some_iff.mp h
    obtain ⟨cb, hcb, ht⟩ := callback_of_armed P hok hid
    exact Or.inr (Or.inl ⟨id, t, cb, .timeout, none, hrun, hcb, ht, onTimeout_completes P hcb ht, Or.inr ⟨rfl, rfl, rfl⟩⟩)
  | destroy =>
    simp only [Option.ite_none_right_eq_some, Option.some.injEq] at h
    exact Or.inr (Or.inr (Or.inr (Or.inr ⟨rfl, h.1, h.2.symm⟩)))

/-! ## The two maps -/

theorem init_table : Delegate.Ok P ({} : Delegate P κ) := by
  refine ⟨?_, ?_, ?_, ?_⟩ <;> simp

theorem request_table (hok : d.Ok) (h : request P d true r = some d') : d'.Ok := by
  obtain ⟨hc, ht, rfl⟩ := request_some P h
  have hlt := hok.armedLt
  refine ⟨?_, ?_, ?_, ?_⟩
  · intro t id
    have harm := hok.armed t id
    dsimp only
    rw [insert_get, insert_get]
    by_cases hnew : d.nextTimer = t
    · by_cases hid : r.id = id
      · simp [hnew, hid]
      · -- the new timer's number was never used
        have hno : d.timers[id]? ≠ some t := fun h => by have := hlt t id (harm.mpr h); omega
        simp [hnew, hid, hno]
    · by_cases hid : r.id = id
      · have hno : d.armed[t]? ≠ some id := by
          intro h
          apply ht
          rw [TreeMap.mem_iff_isSome_getElem?, hid, harm.mp h]; rfl
        simp [hnew, hid, hno]
      · rw [if_neg hnew, if_neg hid]
        exact harm
  · intro t id h
    show t < d.nextTimer + 1
    by_cases he : d.nextTimer = t
    · omega
    · have := hlt t id (by simpa [TreeMap.getElem?_insert, he] using h)
      omega
  · intro id
    dsimp only
    rw [TreeMap.mem_insert, TreeMap.mem_insert, hok.keys, or_assoc]
  · intro id hid hm
    rcases TreeMap.mem_insert.mp hm with he | hm
    · obtain rfl := Std.LawfulEqOrd.eq_of_compare he
      exact hc ((hok.keys _).mpr (Or.inr hid))
    · exact hok.running id hid hm

variable {code : CanonicalCode} {body : Option P.Msg}

theorem completes_table
    (hok : d.Ok) (hrun : d.running = none) (hcb : d.callbacks[id]? = some cb) (h : Completes P d d' id cb code body) :
    d'.Ok := by
  have harm := h.armed
  refine ⟨?_, ?_, ?_, ?_⟩
  · intro t id'
    have harm' := hok.armed t id'
    rw [h.timers, harm, erase_get]
    by_cases ht : d.timers[id]? = some t
    · rw [if_pos ht]
      refine iff_of_false (by nofun) ?_
      intro hid
      split at hid
      · cases hid
      · have hboth := harm'.mpr hid
        rw [(hok.armed t id).mpr ht] at hboth
        exact absurd (Option.some.inj hboth) ‹_›
    · rw [if_neg ht]
      by_cases hid : id = id'
      · subst hid
        rw [if_pos rfl]
        exact iff_of_false (fun h => ht (harm'.mp h)) (by nofun)
      · rw [if_neg hid]
        exact harm'
  · intro t id' ht
    rw [h.nextTimer]
    rw [harm] at ht
    split at ht
    · cases ht
    · exact hok.armedLt t id' ht
  · intro id'
    have hkeys := hok.keys id'
    rw [h.callbacks, h.timers, h.running]
    by_cases hid : id = id'
    · subst hid
      refine iff_of_true ?_ (Or.inr rfl)
      exact mem_of_get hcb
    · rw [hkeys, hrun, TreeMap.mem_erase]
      simp [hid]
  · intro id' hid
    rw [h.running] at hid
    obtain rfl := Option.some.inj hid
    rw [h.timers]
    exact fun hm => (TreeMap.mem_erase.mp hm).1 Std.ReflCmp.compare_self

theorem onReturned_table (hok : d.Ok) (hrun : d.running = some id) : (onReturned P d id).Ok := by
  refine ⟨hok.armed, hok.armedLt, ?_, ?_⟩
  · intro id'
    show id' ∈ d.callbacks.erase id ↔ id' ∈ d.timers ∨ none = some id'
    rw [TreeMap.mem_erase, hok.keys, hrun]
    by_cases hid : id = id'
    · subst hid
      simp [hok.running id hrun]
    · simp [hid]
  · intro id' h; cases h

theorem destroy_table (hok : d.Ok) (hrun : d.running = none) : (destroy P d).Ok := by
  have harm : ∀ t : Nat, (destroy P d).armed[t]? = none := by
    intro t
    show ((d.timers.toList.map Prod.snd).foldl TreeMap.erase d.armed)[t]? = none
    rw [foldl_erase]
    cases ht : d.armed[t]? with
    | none => simp
    | some id =>
      have := TreeMap.mem_toList_iff_getElem?_eq_some.mpr ((hok.armed t id).mp ht)
      rw [if_pos (List.mem_map.mpr ⟨_, this, rfl⟩)]
  refine ⟨?_, ?_, ?_, ?_⟩
  · intro t id
    rw [harm]
    simp [destroy]
  · intro t id h; rw [harm] at h; cases h
  · intro id; simp [destroy, hrun]
  · intro id h; simp [destroy]

theorem step_ok (hok : d.Ok) (h : delegateStep P d e = some d') : d'.Ok := by
  rcases delegateStep_cases P hok h with ⟨r, -, hr⟩ | ⟨id, t, cb, code, body, hrun, hcb, -, hc, -⟩ | ⟨-, -, -, -, -, -, rfl⟩ |
    ⟨id, -, hrun, rfl⟩ | ⟨-, hrun, rfl⟩
  · exact request_table P hok hr
  · exact completes_table P hok hrun hcb hc
  · exact hok
  · exact onReturned_table P hok hrun
  · exact destroy_table P hok hrun

/-! ## What becomes of a Request -/

/-- What an event gives the Request with this id and timer, if it is still open. -/
def completion (id : RequestId) (t : Nat) : DelegateEv P κ → Option (CanonicalCode × Option P.Msg)
  | .response id' code body => if id' = id then some (code, body) else none
  | .expire t' => if t' = t then some (.timeout, none) else none
  | .destroy => some (.connectionReset, none)
  | _ => none

def Delegate.invokedFor (d : Delegate P κ) (id : RequestId) : List (Invocation P κ) := d.invoked.filter fun i => i.id = id

/-- Request `r` is open, with timer `t`; or it was completed, once, with that code and body. -/
def Tracks (d : Delegate P κ) (r : Request P κ) (t : Nat) : Option (CanonicalCode × Option P.Msg) → Prop
  | none => d.callbacks[r.id]? = some r.cb ∧ d.timers[r.id]? = some t ∧ d.invokedFor P r.id = []
  | some (code, body) => r.id ∉ d.timers ∧ d.invokedFor P r.id = [invocation P r.id r.cb code body]

@[simp] theorem invocation_id (id : RequestId) (cb : κ) (code : CanonicalCode) (body : Option P.Msg) :
    (invocation P id cb code body).id = id := rfl

theorem completes_invokedFor (h : Completes P d d' id cb code body) (id' : RequestId) :
    d'.invokedFor P id' = d.invokedFor P id' ++ if id = id' then [invocation P id cb code body] else [] := by
  rw [Delegate.invokedFor, h.invoked, List.filter_append]
  by_cases he : id = id' <;> simp [Delegate.invokedFor, he]

theorem destroy_invokedFor (d : Delegate P κ) (id : RequestId) :
    (destroy P d).invokedFor P id =
      d.invokedFor P id ++ (d.callbacks[id]?.map fun cb => invocation P id cb .connectionReset none).toList := by
  have hfun : (fun i : Invocation P κ => decide (i.id = id)) ∘ (fun p : RequestId × κ => invocation P p.1 p.2 .connectionReset none) =
      fun p => decide (p.1 = id) := rfl
  rw [Delegate.invokedFor, destroy, List.filter_append, List.filter_map, hfun, toList_filter_key]
  cases d.callbacks[id]? <;> rfl

/-- One step completes an open Request exactly if `completion` says so. -/
theorem step_open (hok : d.Ok) (h : delegateStep P d e = some d')
    (ht : Tracks P d r t none) (hne : ∀ r', e = .request r' → r'.id ≠ r.id) :
    Tracks P d' r t (completion P r.id t e) := by
  obtain ⟨h1, h2, h3⟩ := ht
  rcases delegateStep_cases P hok h with ⟨r', rfl, hr'⟩ | ⟨id, t', cb, code, body, -, hcb, ht', hc, he⟩ |
    ⟨id, code, body, rfl, -, hno, rfl⟩ | ⟨id, rfl, hrun, rfl⟩ | ⟨rfl, -, rfl⟩
  · -- another Request
    obtain ⟨-, -, rfl⟩ := request_some P hr'
    have hid := hne r' rfl
    refine ⟨?_, ?_, h3⟩
    · simpa [TreeMap.getElem?_insert, hid] using h1
    · simpa [TreeMap.getElem?_insert, hid] using h2
  · by_cases hid : id = r.id
    · subst hid
      obtain rfl : cb = r.cb := by rw [hcb] at h1; exact Option.some.inj h1
      obtain rfl : t' = t := by rw [ht'] at h2; exact Option.some.inj h2
      have hcomp : completion P r.id t' e = some (code, body) := by
        rcases he with rfl | ⟨rfl, rfl, rfl⟩ <;> simp [completion]
      rw [hcomp]
      refine ⟨?_, ?_⟩
      · rw [hc.timers]; simp
      · rw [completes_invokedFor P hc, h3]; simp
    · -- the completed one has another id, and so another timer
      have htt : t' ≠ t := by
        rintro rfl
        have := (hok.armed t' id).mpr ht'
        rw [(hok.armed t' r.id).mpr h2] at this
        exact hid (Option.some.inj this).symm
      have hcomp : completion P r.id t e = none := by
        rcases he with rfl | ⟨rfl, -, -⟩
        · simp [completion, hid]
        · simp [completion, htt]
      rw [hcomp]
      refine ⟨?_, ?_, ?_⟩
      · rw [hc.callbacks]; exact h1
      · rw [hc.timers]; simpa [TreeMap.getElem?_erase, hid] using h2
      · rw [completes_invokedFor P hc, h3]; simp [hid]
  · have hid : id ≠ r.id := by rintro rfl; rw [hno] at h1; cases h1
    rw [show completion P r.id t (.response id code body) = none by simp [completion, hid]]
    exact ⟨h1, h2, h3⟩
  · have hid : id ≠ r.id := by
      rintro rfl
      exact hok.running _ hrun (mem_of_get h2)
    refine ⟨?_, h2, h3⟩
    simpa [onReturned, TreeMap.getElem?_erase, hid] using h1
  · refine ⟨?_, ?_⟩
    · simp [destroy]
    · rw [destroy_invokedFor, h1, h3]; rfl

theorem step_done (hok : d.Ok) (h : delegateStep P d e = some d')
    {c : CanonicalCode × Option P.Msg} (ht : Tracks P d r t (some c))
    (hne : ∀ r', e = .request r' → r'.id ≠ r.id) : Tracks P d' r t (some c) := by
  obtain ⟨h1, h2⟩ := ht
  rcases delegateStep_cases P hok h with ⟨r', rfl, hr'⟩ | ⟨id, t', cb, code, body, -, -, ht', hc, -⟩ |
    ⟨-, -, -, -, -, -, rfl⟩ | ⟨id, -, -, rfl⟩ | ⟨-, hrun, rfl⟩
  · obtain ⟨-, -, rfl⟩ := request_some P hr'
    refine ⟨?_, h2⟩
    simpa [hne r' rfl] using h1
  · have hid : id ≠ r.id := by
      rintro rfl
      exact h1 (mem_of_get ht')
    refine ⟨?_, ?_⟩
    · rw [hc.timers]; simpa [hid] using h1
    · rw [completes_invokedFor P hc, h2]; simp [hid]
  · exact ⟨h1, h2⟩
  · exact ⟨h1, h2⟩
  · have hno : r.id ∉ d.callbacks := by
      rw [hok.keys]
      rintro (h | h)
      · exact h1 h
      · rw [hrun] at h; cases h
    refine ⟨?_, ?_⟩
    · simp [destroy]
    · rw [destroy_invokedFor, h2, TreeMap.getElem?_eq_none hno]; rfl

variable {o : Option (CanonicalCode × Option P.Msg)}

theorem step_tracks (hok : d.Ok) (h : delegateStep P d e = some d') (ht : Tracks P d r t o)
    (hne : ∀ r', e = .request r' → r'.id ≠ r.id) : Tracks P d' r t (o.or (completion P r.id t e)) := by
  cases o with
  | none => exact step_open P hok h ht hne
  | some c => exact step_done P hok h ht hne

/-! ## Every run -/

def requestIds (evs : List (DelegateEv P κ)) : List RequestId :=
  evs.filterMap fun
    | .request r => some r.id
    | _ => none

@[simp] theorem requestIds_nil : requestIds P ([] : List (DelegateEv P κ)) = [] := rfl

@[simp] theorem requestIds_append (evs fs : List (DelegateEv P κ)) :
    requestIds P (evs ++ fs) = requestIds P evs ++ requestIds P fs := List.filterMap_append

@[simp] theorem requestIds_request (r : Request P κ) (evs : List (DelegateEv P κ)) :
    requestIds P (.request r :: evs) = r.id :: requestIds P evs := rfl

/-- Nothing is stored or called that was not requested; each Request takes the next timer. -/
structure History (d : Delegate P κ) (evs : List (DelegateEv P κ)) : Prop where
  ok : d.Ok
  stored : ∀ id ∈ d.callbacks, id ∈ requestIds P evs
  called : ∀ i ∈ d.invoked, i.id ∈ requestIds P evs
  timers : d.nextTimer = (requestIds P evs).length
  destroyed : d.destroyed = true ↔ DelegateEv.destroy ∈ evs

variable {evs : List (DelegateEv P κ)}

theorem step_history (hh : History P d evs) (h : delegateStep P d e = some d') : History P d' (evs ++ [e]) := by
  have hok := step_ok P hh.ok h
  have hmem : ∀ id, id ∈ requestIds P evs → id ∈ requestIds P (evs ++ [e]) := by
    intro id hid; simp [hid]
  have hold : e ≠ .destroy → (d.destroyed = true ↔ DelegateEv.destroy ∈ evs ++ [e]) := by
    intro he
    rw [hh.destroyed, List.mem_append, List.mem_singleton, or_iff_left (Ne.symm he)]
  rcases delegateStep_cases P hh.ok h with ⟨r, rfl, hr⟩ | ⟨id, t, cb, code, body, -, hcb, -, hc, he⟩ |
    ⟨id, code, body, rfl, -, -, rfl⟩ | ⟨id, rfl, -, rfl⟩ | ⟨rfl, -, rfl⟩
  · obtain ⟨-, -, rfl⟩ := request_some P hr
    refine ⟨hok, ?_, fun i hi => hmem _ (hh.called i hi), ?_, hold (by simp)⟩
    · intro id hid
      rcases TreeMap.mem_insert.mp hid with hid | hid
      · have : r.id = id := by simpa using hid
        simp [this]
      · exact hmem id (hh.stored id hid)
    · simp [hh.timers]
  · have hids : requestIds P (evs ++ [e]) = requestIds P evs := by
      rcases he with rfl | ⟨rfl, -, -⟩ <;> simp [requestIds]
    have hid : id ∈ requestIds P evs := hh.stored id (mem_of_get hcb)
    refine ⟨hok, ?_, ?_, ?_, ?_⟩
    · rw [hc.callbacks, hids]; exact hh.stored
    · intro i hi
      rw [hc.invoked, List.mem_append, List.mem_singleton] at hi
      rw [hids]
      rcases hi with hi | rfl
      · exact hh.called i hi
      · exact hid
    · rw [hc.nextTimer, hids]; exact hh.timers
    · rw [hc.destroyed]
      exact hold (by rcases he with rfl | ⟨rfl, -, -⟩ <;> simp)
  · refine ⟨hok, fun id hid => hmem id (hh.stored id hid), fun i hi => hmem _ (hh.called i hi), ?_, hold (by simp)⟩
    rw [hh.timers]; simp [requestIds]
  · refine ⟨hok, ?_, fun i hi => hmem _ (hh.called i hi), ?_, hold (by simp)⟩
    · intro id' hid
      exact hmem id' (hh.stored id' (TreeMap.mem_of_mem_erase hid))
    · show d.nextTimer = _
      rw [hh.timers]; simp [requestIds]
  · refine ⟨hok, ?_, ?_, ?_, by simp [destroy]⟩
    · intro id hid; simp [destroy] at hid
    · intro i hi
      simp only [destroy, List.mem_append, List.mem_map] at hi
      rcases hi with hi | ⟨⟨id, cb⟩, hp, rfl⟩
      · exact hmem _ (hh.called i hi)
      · have := TreeMap.mem_toList_iff_getElem?_eq_some.mp hp
        exact hmem id (hh.stored id (mem_of_get this))
    · show d.nextTimer = _
      rw [hh.timers]; simp [requestIds]

theorem init_history : History P ({} : Delegate P κ) [] := by
  refine ⟨init_table P, ?_, ?_, rfl, ?_⟩ <;> simp

theorem run_tracks (hok : d.Ok) (h : run (delegateStep P) d evs = some d') (ht : Tracks P d r t o)
    (hno : r.id ∉ requestIds P evs) : Tracks P d' r t (o.or (evs.findSome? (completion P r.id t))) := by
  induction evs generalizing d o with
  | nil => simp at h; subst h; simpa using ht
  | cons e evs ih =>
    obtain ⟨u, hu, h⟩ := run_cons.mp h
    have hne : ∀ r', e = .request r' → r'.id ≠ r.id := by
      rintro r' rfl he
      exact hno (by simp [he])
    have hno' : r.id ∉ requestIds P evs := by
      intro hm
      rw [← List.singleton_append, requestIds_append] at hno
      exact hno (List.mem_append_right _ hm)
    have hstep := ih (step_ok P hok hu) h (step_tracks P hok hu ht hne) hno'
    have hfind : (e :: evs).findSome? (completion P r.id t) =
        (completion P r.id t e).or (evs.findSome? (completion P r.id t)) := by
      rw [List.findSome?_cons]; cases completion P r.id t e <;> rfl
    rw [hfind, ← Option.or_assoc]
    exact hstep

/-- What a Request gets from the events after it: the first that completes it. -/
def outcome (id : RequestId) (t : Nat) (evs : List (DelegateEv P κ)) : Option (CanonicalCode × Option P.Msg) :=
  evs.findSome? (completion P id t)

theorem request_tracks {pre post : List (DelegateEv P κ)}
    (hr : run (delegateStep P) {} (pre ++ .request r :: post) = some d)
    (hfresh : (requestIds P (pre ++ .request r :: post)).Nodup) :
    Tracks P d r (requestIds P pre).length (outcome P r.id (requestIds P pre).length post) ∧
      (d.destroyed = true → DelegateEv.destroy ∈ post) := by
  obtain ⟨s, hs, hr⟩ := run_append.mp hr
  obtain ⟨u, hu, hpost⟩ := run_cons.mp hr
  have hh : History P s pre := run_history (fun _ _ _ _ hh h => step_history P hh h) (init_history P) hs
  have hhu := step_history P hh hu
  have hhd := run_history (fun _ _ _ _ hh h => step_history P hh h) hhu hpost
  simp only [requestIds_append, requestIds_request, List.nodup_append, List.nodup_cons] at hfresh
  obtain ⟨-, ⟨hpostno, -⟩, hpreno⟩ := hfresh
  have hlive : ¬ s.destroyed = true := by
    intro hd; rw [delegateStep, if_pos hd] at hu; cases hu
  have hstart : Tracks P u r (requestIds P pre).length none := by
    rw [delegateStep, if_neg hlive] at hu
    obtain ⟨-, -, rfl⟩ := request_some P hu
    refine ⟨by simp, by simp [hh.timers], ?_⟩
    refine List.filter_eq_nil_iff.mpr ?_
    intro i hi
    have := hpreno _ (hh.called i hi) r.id (by simp)
    simpa using this
  refine ⟨run_tracks P hhu.ok hpost hstart hpostno, ?_⟩
  intro hd
  have := hhd.destroyed.mp hd
  simp only [List.mem_append, List.mem_singleton] at this
  rcases this with (hm | hm) | hm
  · exact absurd (hh.destroyed.mpr hm) hlive
  · cases hm
  · exact hm

theorem tracks_called (hok : d.Ok)
    (ht : Tracks P d r t o) {i : Invocation P κ} (hi : i ∈ d.invoked) (hid : i.id = r.id) (t' : Nat) :
    d.armed[t']? ≠ some r.id := by
  have hmem : i ∈ d.invokedFor P r.id := List.mem_filter.mpr ⟨hi, by simp [hid]⟩
  cases o with
  | none => rw [ht.2.2] at hmem; cases hmem
  | some c =>
    intro harm
    exact ht.1 (mem_of_get ((hok.armed t' r.id).mp harm))

/-- Every run with fresh ids. Outside a callback the two maps hold the same ids. Each
    Request's callback has been called with the first of its response, its timeout and the
    destruction, and not at all if none has come; after the destruction one has. Nothing
    else was called, no timer of a completed Request is armed, and `SetCallback`'s checks
    pass for the next fresh id. -/
theorem pending_table {evs : List (DelegateEv P κ)} {d : Delegate P κ} (hr : run (delegateStep P) {} evs = some d)
    (hfresh : (requestIds P evs).Nodup) :
    (d.running = none → ∀ id, id ∈ d.callbacks ↔ id ∈ d.timers) ∧
    (∀ pre r post, evs = pre ++ .request r :: post →
      d.invokedFor P r.id = ((outcome P r.id (requestIds P pre).length post).map fun c =>
        invocation P r.id r.cb c.1 c.2).toList ∧
      (d.destroyed = true → (outcome P r.id (requestIds P pre).length post).isSome)) ∧
    (∀ i ∈ d.invoked, i.id ∈ requestIds P evs ∧ ∀ t : Nat, d.armed[t]? ≠ some i.id) ∧
    (d.destroyed = false → ∀ r, r.id ∉ requestIds P evs → (delegateStep P d (.request r)).isSome) := by
  have hh : History P d evs := run_history (fun _ _ _ _ hh h => step_history P hh h) (init_history P) hr
  refine ⟨?_, ?_, ?_, ?_⟩
  · intro hrun id
    rw [hh.ok.keys, hrun]; simp
  · rintro pre r post rfl
    obtain ⟨ht, hd⟩ := request_tracks P hr hfresh
    refine ⟨?_, fun hdes => ?_⟩
    · cases ho : outcome P r.id (requestIds P pre).length post with
      | none => rw [ho] at ht; exact ht.2.2
      | some c => rw [ho] at ht; exact ht.2
    · exact List.findSome?_isSome_iff.mpr ⟨_, hd hdes, rfl⟩
  · intro i hi
    have hid := hh.called i hi
    refine ⟨hid, fun t ht => ?_⟩
    obtain ⟨e, he, hei⟩ := List.mem_filterMap.mp hid
    obtain ⟨pre, post, rfl⟩ := List.append_of_mem he
    cases e with
    | request r =>
      have hrid : r.id = i.id := by simpa using hei
      rw [← hrid] at ht
      exact tracks_called P hh.ok (request_tracks P hr hfresh).1 hi hrid.symm t ht
    | _ => cases hei
  · intro hd r hid
    have hc : r.id ∉ d.callbacks := fun hm => hid (hh.stored r.id hm)
    have ht : r.id ∉ d.timers := fun hm => hc ((hh.ok.keys r.id).mpr (Or.inl hm))
    simp [delegateStep, hd, request, setTimeout, setCallback, hc, ht]

/-- Three Requests; the second is answered and issues a fourth from its callback, its answer
    comes again, the first times out, an answer comes to nobody, and the delegate goes. -/
def fourRequests : List (DelegateEv .plain Nat) :=
  let r (id : RequestId) (cb : Nat) : DelegateEv .plain Nat := .request ⟨id, .fetch, (.request .fetch, []), cb⟩
  [r 1 10, r 2 20, r 3 30, .response 2 .ok (some (.response .fetch, [7])), r 4 40, .returned,
    .response 2 .clientError none, .expire 0, .returned, .response 9 .ok none, .destroy]

theorem pending_table_four : ∃ d, run (delegateStep .plain) {} fourRequests = some d ∧
    d.invoked.map (fun i => (i.id, i.cb, i.code)) =
      [(2, 20, .ok), (1, 10, .timeout), (3, 30, .connectionReset), (4, 40, .connectionReset)] ∧
    (d.running = none → ∀ id, id ∈ d.callbacks ↔ id ∈ d.timers) :=
  ⟨_, rfl, by decide, (pending_table .plain (show run (delegateStep .plain) {} fourRequests = some _ from rfl) (by decide)).1⟩

end Aworker.Ipc
