/-
  Aworker.AgentChannel.Trigger — how a trigger is answered (lib/agent_channel.js: the `trigger`
  handler; lib/service_worker/event.js: `respondWith`, `getFetchEventRespondWithPromise`;
  lib/service_worker/index.js: `installFuture`, `dispatchActivateEvent`; `doDispatchEvent` in
  lib/dom/event_target.js; noslated_data_channel.cc: `Trigger`, `Feedback`).

  A trigger waits for `installFuture`. `init` then dispatches the activate event and waits for
  `activateFuture`; `invoke` dispatches a fetch event of its own and waits for what `respondWith` was
  given. Each wait is a reaction of a promise that runs some time after it was settled, in any
  order here (`Move`). Any number of triggers are on their way at once, and share the two
  futures, the activate event, the promises and streams of the program, and the channel's table
  of requests without an answer (`Shared`). The agent does not use the id of a request that is
  open.

  The program is its listeners, which call `respondWith` and throw, and whoever settles promises
  and takes readers; it may also call `respondWith` when the dispatch is over. That is refused
  unless a listener threw, which leaves `dispatchFlag` set.

  `init` asks for more than the two lifetimes: a second one dispatches the activate event again,
  and a listener that throws fails it whatever becomes of the lifetime.

  `answered_once`: in every run a trigger is answered at most once. The reactions come to an
  end, and then every trigger whose promises were settled has its answer, `OK` exactly if it
  succeeded (`Succeeds`).
-/

import Mathlib
import Aworker.Lib.Effects
import Aworker.Lib.Run
import Aworker.Fetch.Body
import Aworker.Ipc.Message
import Aworker.ServiceWorker.Lifetime
import Aworker.AgentChannel.Streaming

namespace Aworker.AgentChannel.Trigger

open Aworker.Lib Option
open Aworker.Fetch (Text JsNumber JsError Headers HeaderList)
open Aworker.Ipc (CanonicalCode)
open Aworker.Lifetime (Outcome)

/-! ## Dispatching -/

/-- What was thrown; `E` are the program's errors. -/
inductive Failure (E : Type) where
  | program (e : E)
  | js (e : JsError)
  /-- `new Error('This event has been in dispatching.')` -/
  | dispatching

structure Event (σ : Type) where
  dispatchFlag : Bool := false
  data : σ

variable {P B E σ : Type}

/-- The flag stays set when a listener throws. -/
def doDispatchEvent (listeners : List (Eff (Failure E) (Event σ) Unit)) : Eff (Failure E) (Event σ) Unit :=
  if listeners.isEmpty then pure ()
  else do
    let event ← getThe (Event σ)
    throwIf (event.dispatchFlag = true) .dispatching
    modify fun event => { event with dispatchFlag := true }
    listeners.forM id
    modify fun event => { event with dispatchFlag := false }

/-! ## Responses -/

/-- `body` is the stream behind `response.body`. -/
structure Response (B : Type) where
  status : JsNumber
  headers : Headers
  body : Option B

inductive Value (B : Type) where
  | response (r : Response B)
  | other

inductive Settlement (B E : Type) where
  | fulfilled (v : Value B)
  | rejected (e : E)

/-- A response that can be built again around its body. -/
def Response.constructible (r : Response B) : Prop :=
  r.status.ltInt 200 = false ∧ r.status.gtInt 599 = false ∧ (r.body.isSome = true → Fetch.nullBodyStatus.any r.status.eqInt = false)

/-- `new Response(newStream, response)`; `newStream` hands the chunks of the body on. -/
def newResponse (hasLocation : Bool) (r : Response B) : Except JsError (Response B) :=
  if r.status.ltInt 200 || r.status.gtInt 599 then .error (.statusRange r.status)
  else if r.body.isSome && Fetch.nullBodyStatus.any r.status.eqInt then
    .error (.typeError "Response with null body status cannot have body".toList)
  else .ok { r with headers := if hasLocation then r.headers.stripped Fetch.forbiddenResponseHeaders.contains else r.headers }

/-! ## Fetch events -/

/-- The fields of a `FetchEvent` for its response. -/
structure Responding (P B E : Type) where
  respondWithEnteredFlag : Bool := false
  /-- the promise that was passed; `respondWithPromise` is its `then` -/
  ret : Option P := none
  /-- how `respondWithPromise` was settled -/
  respondWithPromise : Option (Outcome (Failure E)) := none
  potentialResponse : Option (Response B) := none
  /-- the body had a reader when the callback of `then` ran -/
  lockedThen : Bool := false

abbrev FetchEvent (P B E : Type) : Type := Event (Responding P B E)

/-- Up to `ret.then`, whose callbacks are `reply`. -/
def respondWith (ret : P) : Eff (Failure E) (FetchEvent P B E) Unit := do
  let event ← getThe (FetchEvent P B E)
  throwIf (event.dispatchFlag = false) (.js .invalidState)
  throwIf (event.data.respondWithEnteredFlag = true) (.js .invalidState)
  modify fun event => { event with data := { event.data with respondWithEnteredFlag := true, ret := some ret } }

inductive Act (P E : Type) where
  | respondWith (ret : P) (caught : Bool)
  | throws (e : E)

def Act.run : Act P E → Eff (Failure E) (FetchEvent P B E) Unit
  | .respondWith ret true => tryCatch (Trigger.respondWith ret) fun _ => pure ()
  | .respondWith ret false => Trigger.respondWith ret
  | .throws e => throw (.program e)

def fetchListener (acts : List (Act P E)) : Eff (Failure E) (FetchEvent P B E) Unit := acts.forM Act.run

/-- A listener for the activate event returns or throws. -/
def activateListener : Option E → Eff (Failure E) (Event Unit) Unit
  | none => pure ()
  | some e => throw (.program e)

/-! ## Triggers -/

def initMethod : Text := "init".toList

def invokeMethod : Text := "invoke".toList

abbrev RequestId := UInt32

/-- `hasInputData` is `StreamTable`'s. -/
structure Request where
  method : Text
  sid : Option Sid := none
  hasOutputData : Bool := false

inductive Feedback (E : Type) where
  | ok (status : JsNumber) (headers : HeaderList)
  /-- with `safeError(e)` -/
  | internalError (e : Failure E)

def Feedback.code : Feedback E → CanonicalCode
  | .ok _ _ => .ok
  | .internalError _ => .internalError

inductive Stage (B E : Type) where
  /-- waits for `installFuture` -/
  | install
  | activate
  /-- waits for `respondWithPromise`, if there is one -/
  | respond (waits : Bool)
  | activated
  | responded (potentialResponse : Option (Response B))
  | failed (e : Failure E)
  | answered

structure Call (P B E : Type) where
  id : RequestId
  request : Request
  stage : Stage B E := .install
  event : FetchEvent P B E := { data := {} }
  /-- how the dispatch for it ended -/
  dispatch : Option (Except (Failure E) Unit) := none
  feedbacks : List (Feedback E) := []
  /-- its call of `pipeStreamsToAgent` -/
  piped : Option (Option Sid × Option B) := none

/-- `installFuture` or `activateFuture`, and the lifetime promise it waits for once its event was dispatched. -/
structure Future (E : Type) where
  resolved : Bool := false
  lifetime : Option (Outcome E) := none
  future : Option (Outcome E) := none

structure Shared (P B E : Type) where
  install : Future E := {}
  activate : Future E := {}
  activateEvent : Event Unit := { data := () }
  promise : P → Option (Settlement B E) := fun _ => none
  locked : B → Bool := fun _ => false
  /-- `callbacks_` -/
  callbacks : List RequestId := []

structure State (P B E : Type) where
  shared : Shared P B E := {}
  calls : List (Call P B E) := []

/-! ## Steps -/

inductive Move (P E : Type) where
  | installFailed
  | init (listeners : List (Option E))
  /-- `created`: `createFetchEvent` throws -/
  | invoke (created : Option (Failure E)) (listeners : List (List (Act P E)))
  | activateSettled
  /-- a callback of `ret.then` -/
  | reply
  | respondSettled
  | answer
  /-- the program calls `respondWith` after the dispatch -/
  | respondWith (ret : P)

inductive Which where
  | install
  | activate

inductive Ev (P B E : Type) where
  | trigger (id : RequestId) (request : Request)
  | call (n : Nat) (move : Move P E)
  /-- `resolveInstallFuture()` -/
  | resolveInstall
  | lifetime (which : Which) (o : Outcome E)
  /-- the future is settled as the lifetime was -/
  | follow (which : Which)
  | settle (p : P) (v : Settlement B E)
  | lock (b : B)
  | unlock (b : B)

/-- The callbacks of `ret.then`, for a promise that was settled with `v`. -/
def reply [DecidableEq B] (hasLocation : Bool) (sh : Shared P B E) (d : Responding P B E) : Settlement B E → Shared P B E × Responding P B E
  | .rejected e => (sh, { d with respondWithPromise := some (.rejected (.program e)) })
  | .fulfilled .other => (sh, { d with respondWithPromise := some .fulfilled })
  | .fulfilled (.response r) =>
    if r.body.any sh.locked then
      (sh, { d with respondWithPromise := some (.rejected (.js (.typeError "stream is locked.".toList))), lockedThen := true })
    else
      -- `getReader`
      let sh := { sh with locked := fun b => decide (r.body = some b) || sh.locked b }
      match newResponse hasLocation r with
      | .error e => (sh, { d with respondWithPromise := some (.rejected (.js e)) })
      | .ok potentialResponse => (sh, { d with respondWithPromise := some .fulfilled, potentialResponse := some potentialResponse })

/-- `_ac.feedback`; it throws if the id is not open. -/
def feedback (sh : Shared P B E) (c : Call P B E) (f : Feedback E) (piped : Option (Option Sid × Option B)) : Shared P B E × Call P B E :=
  ({ sh with callbacks := sh.callbacks.erase c.id },
    { c with stage := .answered, feedbacks := c.feedbacks ++ [f], piped := if c.id ∈ sh.callbacks then piped else none })

def answer (sh : Shared P B E) (c : Call P B E) : Option (Shared P B E × Call P B E) :=
  match c.stage with
  | .activated => some (feedback sh c (.ok (.ofInt 200) []) none)
  | .responded none => some (feedback sh c (.internalError (.js (.typeError "Event settled without response".toList))) none)
  | .responded (some r) =>
    some (feedback sh c (.ok r.status r.headers.data) (some (if c.request.hasOutputData then c.request.sid else none, r.body)))
  | .failed e => some (feedback sh c (.internalError e) none)
  | _ => none

def callStep [DecidableEq B] (hasLocation : Bool) (sh : Shared P B E) (c : Call P B E) : Move P E → Option (Shared P B E × Call P B E)
  | .installFailed =>
    match c.stage, sh.install.future with
    | .install, some (.rejected e) => some (sh, { c with stage := .failed (.program e) })
    | _, _ => none
  | .init listeners =>
    match c.stage, sh.install.future with
    | .install, some .fulfilled =>
      if c.request.method = initMethod then
        match exec (doDispatchEvent (listeners.map activateListener)) sh.activateEvent with
        | (.ok _, activateEvent) =>
          some ({ sh with activateEvent, activate := { sh.activate with resolved := true } },
            { c with stage := .activate, dispatch := some (.ok ()) })
        | (.error e, activateEvent) => some ({ sh with activateEvent }, { c with stage := .failed e, dispatch := some (.error e) })
      else none
    | _, _ => none
  | .invoke created listeners =>
    match c.stage, sh.install.future with
    | .install, some .fulfilled =>
      if c.request.method = invokeMethod then
        match created with
        | some e => some (sh, { c with stage := .failed e })
        | none =>
          match exec (doDispatchEvent (listeners.map fetchListener)) c.event with
          | (.ok _, event) => some (sh, { c with stage := .respond event.data.ret.isSome, event, dispatch := some (.ok ()) })
          | (.error e, event) => some (sh, { c with stage := .failed e, event, dispatch := some (.error e) })
      else none
    | _, _ => none
  | .activateSettled =>
    match c.stage, sh.activate.future with
    | .activate, some .fulfilled => some (sh, { c with stage := .activated })
    | .activate, some (.rejected e) => some (sh, { c with stage := .failed (.program e) })
    | _, _ => none
  | .reply =>
    match c.event.data.respondWithPromise, c.event.data.ret.bind sh.promise with
    | none, some v =>
      let next := reply hasLocation sh c.event.data v
      some (next.1, { c with event := { c.event with data := next.2 } })
    | _, _ => none
  | .respondSettled =>
    match c.stage, c.event.data.respondWithPromise with
    | .respond false, _ => some (sh, { c with stage := .responded c.event.data.potentialResponse })
    | .respond true, some .fulfilled => some (sh, { c with stage := .responded c.event.data.potentialResponse })
    | .respond true, some (.rejected e) => some (sh, { c with stage := .failed e })
    | _, _ => none
  | .answer => answer sh c
  | .respondWith ret => some (sh, { c with event := (exec (respondWith ret) c.event).2 })

def Future.settle (f : Future E) (o : Outcome E) : Option (Future E) :=
  match f.lifetime with
  | none => some { f with lifetime := some o }
  | some _ => none

def Future.follow (f : Future E) : Option (Future E) :=
  match f.resolved, f.lifetime, f.future with
  | true, some o, none => some { f with future := some o }
  | _, _, _ => none

def Shared.onFuture (sh : Shared P B E) (which : Which) (f : Future E → Option (Future E)) : Option (Shared P B E) :=
  match which with
  | .install => (f sh.install).map fun install => { sh with install }
  | .activate => (f sh.activate).map fun activate => { sh with activate }

def sharedStep [DecidableEq P] [DecidableEq B] (sh : Shared P B E) : Ev P B E → Option (Shared P B E)
  | .resolveInstall => some { sh with install := { sh.install with resolved := true } }
  | .lifetime which o => sh.onFuture which (·.settle o)
  | .follow which => sh.onFuture which Future.follow
  | .settle p v =>
    match sh.promise p with
    | none => some { sh with promise := Function.update sh.promise p (some v) }
    | some _ => none
  | .lock b => some { sh with locked := Function.update sh.locked b true }
  | .unlock b => some { sh with locked := Function.update sh.locked b false }
  | .trigger _ _ | .call _ _ => none

/-- The handler, up to the first promise it waits for. -/
def trigger (s : State P B E) (id : RequestId) (request : Request) : State P B E :=
  let sh := { s.shared with callbacks := id :: s.shared.callbacks }
  let c : Call P B E := { id, request }
  if request.method = initMethod ∨ request.method = invokeMethod then { shared := sh, calls := s.calls ++ [c] }
  else
    let next := feedback sh c (.internalError (.js (.typeError "Unrecognizable method".toList))) none
    { shared := next.1, calls := s.calls ++ [next.2] }

def step [DecidableEq P] [DecidableEq B] (hasLocation : Bool) (s : State P B E) : Ev P B E → Option (State P B E)
  | .trigger id request => if id ∈ s.shared.callbacks then none else some (trigger s id request)
  | .call n move =>
    match s.calls[n]? with
    | none => none
    | some c => (callStep hasLocation s.shared c move).map fun next => { shared := next.1, calls := s.calls.set n next.2 }
  | e => (sharedStep s.shared e).map fun shared => { s with shared }

/-! ## One event -/

/-- A response that `respondWith` accepts, from what its callback saw. -/
def Usable (r : Response B) (lockedThen : Bool) : Prop := lockedThen = false ∧ r.constructible

theorem newResponse_spec (hasLocation : Bool) (r : Response B) :
    (∃ e, newResponse hasLocation r = .error e ∧ ¬r.constructible) ∨
      ∃ p, newResponse hasLocation r = .ok p ∧ r.constructible ∧ p.body = r.body := by
  unfold newResponse
  by_cases hrange : (r.status.ltInt 200 || r.status.gtInt 599) = true
  · rw [if_pos hrange]
    refine Or.inl ⟨_, rfl, ?_⟩
    rintro ⟨hlow, hhigh, -⟩
    rw [hlow, hhigh] at hrange
    cases hrange
  rw [if_neg hrange]
  by_cases hnull : (r.body.isSome && Fetch.nullBodyStatus.any r.status.eqInt) = true
  · rw [if_pos hnull]
    refine Or.inl ⟨_, rfl, ?_⟩
    rintro ⟨-, -, hbody⟩
    obtain ⟨hsome, hany⟩ := Bool.and_eq_true_iff.mp hnull
    rw [hbody hsome] at hany
    cases hany
  · rw [if_neg hnull]
    have hrange := Bool.or_eq_false_iff.mp (Bool.eq_false_iff.mpr hrange)
    refine Or.inr ⟨_, rfl, ⟨hrange.1, hrange.2, fun hsome => ?_⟩, rfl⟩
    rw [hsome, Bool.true_and] at hnull
    exact Bool.eq_false_iff.mpr hnull

structure EventOk (sh : Shared P B E) (d : Responding P B E) : Prop where
  entered : d.respondWithEnteredFlag = d.ret.isSome
  pending : d.respondWithPromise = none → d.potentialResponse = none ∧ d.lockedThen = false
  settled : d.respondWithPromise ≠ none → ∃ ret v, d.ret = some ret ∧ sh.promise ret = some v ∧
    match d.potentialResponse with
    | some p => d.respondWithPromise = some .fulfilled ∧ ∃ r, v = .fulfilled (.response r) ∧ Usable r d.lockedThen ∧ p.body = r.body
    | none => ∀ r, v = .fulfilled (.response r) → ¬Usable r d.lockedThen

theorem fresh_eventOk (sh : Shared P B E) : EventOk sh {} where
  entered := rfl
  pending _ := ⟨rfl, rfl⟩
  settled h := absurd rfl h

/-- `respondWith` throws, or it is taken. -/
theorem respondWith_cases (ret : P) (event : FetchEvent P B E) :
    (exec (respondWith ret) event).2 = event ∨
      event.dispatchFlag = true ∧ event.data.respondWithEnteredFlag = false ∧
        (exec (respondWith ret) event).2 = { event with data := { event.data with respondWithEnteredFlag := true, ret := some ret } } := by
  unfold respondWith
  rw [exec_bind_ok (exec_get event), exec_throwIf_bind]
  split_ifs with hflag
  · exact Or.inl rfl
  · rw [exec_throwIf_bind]
    split_ifs with hentered
    · exact Or.inl rfl
    · exact Or.inr ⟨by simpa using hflag, by simpa using hentered, rfl⟩

theorem respondWith_ok (sh : Shared P B E) (ret : P) : Keeps (fun event : FetchEvent P B E => EventOk sh event.data)
    (respondWith ret : Eff (Failure E) (FetchEvent P B E) Unit) := by
  intro event h
  rcases respondWith_cases ret event with heq | ⟨-, hentered, heq⟩
  · rwa [heq]
  · rw [heq]
    have hret : event.data.ret = none := by
      have := h.entered
      rw [hentered] at this
      exact not_isSome_iff_eq_none.mp (by simp [← this])
    -- nothing was settled before a promise was passed
    refine ⟨rfl, h.pending, fun hset => ?_⟩
    obtain ⟨r, v, hr, -⟩ := h.settled hset
    rw [hret] at hr
    cases hr

theorem fetchListener_ok (sh : Shared P B E) (acts : List (Act P E)) : Keeps (fun event : FetchEvent P B E => EventOk sh event.data)
    (fetchListener acts : Eff (Failure E) (FetchEvent P B E) Unit) := by
  refine keeps_forM fun act _ => ?_
  cases act with
  | throws e => exact fun _ h => h
  | respondWith ret caught =>
    cases caught with
    | false => exact respondWith_ok sh ret
    | true => exact keeps_tryCatch (respondWith_ok sh ret) fun _ _ h => h

variable {listeners : List (Eff (Failure E) (Event σ) Unit)}

theorem doDispatchEvent_keeps {I : σ → Prop} (hl : ∀ l ∈ listeners, Keeps (fun event : Event σ => I event.data) l) :
    Keeps (fun event : Event σ => I event.data) (doDispatchEvent listeners) := by
  unfold doDispatchEvent
  split
  · exact fun _ h => h
  · refine keeps_bind (fun _ h => h) fun event => keeps_bind (keeps_throwIf _) fun _ => ?_
    exact keeps_bind (fun _ h => h) fun _ => keeps_bind (keeps_forM hl) fun _ _ h => h

theorem doDispatchEvent_flag {event event' : Event σ} {u : Unit}
    (h0 : event.dispatchFlag = false) (h : exec (doDispatchEvent listeners) event = (.ok u, event')) : event'.dispatchFlag = false := by
  unfold doDispatchEvent at h
  split at h
  · rw [← (Prod.mk.inj h).2]
    exact h0
  · rw [exec_bind_ok (exec_get event), exec_throwIf_bind, if_neg (by simp [h0]), exec_bind_ok (exec_modify _ event), exec_bind] at h
    split at h
    · rw [← (Prod.mk.inj h).2]
    · cases (Prod.mk.inj h).1

variable {sh : Shared P B E} {d : Responding P B E}

/-- The callbacks of `ret.then` settle `respondWithPromise`. -/
theorem reply_ok [DecidableEq B] (hasLocation : Bool) (h : EventOk sh d)
    (hnone : d.respondWithPromise = none) {ret : P} (hret : d.ret = some ret) {v : Settlement B E} (hv : sh.promise ret = some v) :
    EventOk sh (reply hasLocation sh d v).2 ∧ (reply hasLocation sh d v).2.ret = d.ret := by
  obtain ⟨hpot, hlocked⟩ := h.pending hnone
  have hsome : ∀ o : Outcome (Failure E), some o ≠ none := fun _ => some_ne_none _
  match v with
  | .rejected e =>
    refine ⟨⟨h.entered, fun hno => absurd hno (hsome _), fun _ => ⟨ret, _, hret, hv, ?_⟩⟩, rfl⟩
    simp [reply, hpot]
  | .fulfilled .other =>
    refine ⟨⟨h.entered, fun hno => absurd hno (hsome _), fun _ => ⟨ret, _, hret, hv, ?_⟩⟩, rfl⟩
    simp [reply, hpot]
  | .fulfilled (.response r) =>
    simp only [reply]
    by_cases hbody : r.body.any sh.locked = true
    · rw [if_pos hbody]
      refine ⟨⟨h.entered, fun hno => absurd hno (hsome _), fun _ => ⟨ret, _, hret, hv, ?_⟩⟩, rfl⟩
      simp [hpot, Usable]
    rw [if_neg hbody]
    rcases newResponse_spec hasLocation r with ⟨e, he, hno⟩ | ⟨p, hp, hyes, hsame⟩
    · rw [he]
      refine ⟨⟨h.entered, fun hno => absurd hno (hsome _), fun _ => ⟨ret, _, hret, hv, ?_⟩⟩, rfl⟩
      simp [hpot, Usable, hno]
    · rw [hp]
      refine ⟨⟨h.entered, fun hno => absurd hno (hsome _), fun _ => ⟨ret, _, hret, hv, ?_⟩⟩, rfl⟩
      exact ⟨rfl, r, rfl, ⟨hlocked, hyes⟩, hsame⟩

theorem reply_shared [DecidableEq B] (hasLocation : Bool) (sh : Shared P B E) (d : Responding P B E) (v : Settlement B E) :
    ∃ locked o, (reply hasLocation sh d v).1 = { sh with locked } ∧ (reply hasLocation sh d v).2.respondWithPromise = some o := by
  match v with
  | .rejected e => exact ⟨_, _, rfl, rfl⟩
  | .fulfilled .other => exact ⟨_, _, rfl, rfl⟩
  | .fulfilled (.response r) =>
    simp only [reply]
    split
    · exact ⟨_, _, rfl, rfl⟩
    · split <;> exact ⟨_, _, rfl, rfl⟩

/-! ## One trigger -/

/-- A future is settled as its lifetime was. -/
def Future.Ok (f : Future E) : Prop := ∀ o, f.future = some o → f.lifetime = some o

structure Future.Le (f f' : Future E) : Prop where
  resolved : f.resolved = true → f'.resolved = true
  future : ∀ o, f.future = some o → f'.future = some o

structure Shared.Le (sh sh' : Shared P B E) : Prop where
  install : sh.install.Le sh'.install
  activate : sh.activate.Le sh'.activate
  promise : ∀ p v, sh.promise p = some v → sh'.promise p = some v

theorem Future.Le.refl (f : Future E) : f.Le f := ⟨fun h => h, fun _ h => h⟩

theorem Shared.Le.refl (sh : Shared P B E) : sh.Le sh := ⟨.refl _, .refl _, fun _ _ h => h⟩

theorem EventOk.mono {sh' : Shared P B E} (h : EventOk sh d) (hle : sh.Le sh') : EventOk sh' d where
  entered := h.entered
  pending := h.pending
  settled hset := by
    obtain ⟨ret, v, hret, hv, hrest⟩ := h.settled hset
    exact ⟨ret, v, hret, hle.promise ret v hv, hrest⟩

/-- `OK` is due: the dispatch for the request did not throw, and the lifetimes were fulfilled, or
    `respondWith` was given a promise of a response that it accepts. -/
def Succeeds (sh : Shared P B E) (c : Call P B E) : Prop :=
  c.dispatch = some (.ok ()) ∧
    (c.request.method = initMethod ∧ sh.install.lifetime = some .fulfilled ∧ sh.activate.lifetime = some .fulfilled ∨
      c.request.method = invokeMethod ∧ ∃ ret r, c.event.data.ret = some ret ∧ sh.promise ret = some (.fulfilled (.response r)) ∧
        Usable r c.event.data.lockedThen)

/-- An event that changes no more. -/
def Event.Final (event : FetchEvent P B E) : Prop :=
  event.dispatchFlag = false ∧ (event.data.ret = none ∨ event.data.respondWithPromise ≠ none)

/-- The chain has come to `OK`. -/
def Accepted (sh : Shared P B E) (c : Call P B E) : Prop :=
  c.dispatch = some (.ok ()) ∧
    (c.request.method = initMethod ∧ sh.install.future = some .fulfilled ∧ sh.activate.future = some .fulfilled ∨
      c.request.method = invokeMethod ∧ c.event.Final ∧ c.event.data.potentialResponse ≠ none)

/-- The chain has come to an error. -/
def Refused (sh : Shared P B E) (c : Call P B E) : Prop :=
  c.dispatch ≠ some (.ok ()) ∨ c.request.method = initMethod ∧ (∃ e, sh.activate.future = some (.rejected e)) ∨
    c.request.method = invokeMethod ∧ c.event.Final ∧ c.event.data.potentialResponse = none

/-- The call of `pipeStreamsToAgent` that follows the answer. -/
def Call.pipes (c : Call P B E) : Option (Option Sid × Option B) :=
  if c.request.method = invokeMethod then
    c.event.data.potentialResponse.map fun r => (if c.request.hasOutputData then c.request.sid else none, r.body)
  else none

def Fits (sh : Shared P B E) (c : Call P B E) : Stage B E → Prop
  | .install => c.dispatch = none ∧ c.event = { data := {} }
  | .activate =>
    c.request.method = initMethod ∧ c.dispatch = some (.ok ()) ∧ sh.install.future = some .fulfilled ∧ sh.activate.resolved = true
  | .respond waits =>
    c.request.method = invokeMethod ∧ c.dispatch = some (.ok ()) ∧ c.event.dispatchFlag = false ∧ waits = c.event.data.ret.isSome
  | .activated => c.request.method = initMethod ∧ Accepted sh c
  | .responded p =>
    c.request.method = invokeMethod ∧ c.dispatch = some (.ok ()) ∧ c.event.Final ∧ c.event.data.potentialResponse = p
  | .failed _ => Refused sh c
  | .answered =>
    ∃ f, c.feedbacks = [f] ∧ (f.code = .ok ∧ Accepted sh c ∧ c.piped = c.pipes ∨ f.code = .internalError ∧ Refused sh c ∧ c.piped = none)

structure CallOk (sh : Shared P B E) (c : Call P B E) : Prop where
  event : EventOk sh c.event.data
  unanswered : c.stage ≠ .answered →
    (c.request.method = initMethod ∨ c.request.method = invokeMethod) ∧ c.feedbacks = [] ∧ c.piped = none
  fits : Fits sh c c.stage

variable {sh sh' : Shared P B E} {c c' : Call P B E}

theorem Accepted.mono (h : Accepted sh c) (hle : sh.Le sh') : Accepted sh' c := by
  obtain ⟨hd, ⟨hm, hi, ha⟩ | hinvoke⟩ := h
  · exact ⟨hd, Or.inl ⟨hm, hle.install.future _ hi, hle.activate.future _ ha⟩⟩
  · exact ⟨hd, Or.inr hinvoke⟩

theorem Refused.mono (h : Refused sh c) (hle : sh.Le sh') : Refused sh' c := by
  obtain hd | ⟨hm, e, ha⟩ | hinvoke := h
  · exact Or.inl hd
  · exact Or.inr (Or.inl ⟨hm, e, hle.activate.future _ ha⟩)
  · exact Or.inr (Or.inr hinvoke)

theorem CallOk.mono (h : CallOk sh c) (hle : sh.Le sh') : CallOk sh' c where
  event := h.event.mono hle
  unanswered := h.unanswered
  fits := by
    have hfits := h.fits
    cases hs : c.stage with
    | install =>
      rw [hs] at hfits
      exact hfits
    | activate =>
      rw [hs] at hfits
      obtain ⟨hm, hd, hi, hr⟩ := hfits
      exact ⟨hm, hd, hle.install.future _ hi, hle.activate.resolved hr⟩
    | respond waits =>
      rw [hs] at hfits
      exact hfits
    | activated =>
      rw [hs] at hfits
      exact ⟨hfits.1, hfits.2.mono hle⟩
    | responded p =>
      rw [hs] at hfits
      exact hfits
    | failed e =>
      rw [hs] at hfits
      exact Refused.mono hfits hle
    | answered =>
      rw [hs] at hfits
      obtain ⟨f, hf, ⟨hcode, hacc, hpiped⟩ | ⟨hcode, href, hpiped⟩⟩ := hfits
      · exact ⟨f, hf, Or.inl ⟨hcode, hacc.mono hle, hpiped⟩⟩
      · exact ⟨f, hf, Or.inr ⟨hcode, href.mono hle, hpiped⟩⟩

theorem accepted_succeeds (h : Accepted sh c) (hevent : EventOk sh c.event.data) (hi : sh.install.Ok) (ha : sh.activate.Ok) :
    Succeeds sh c := by
  obtain ⟨hd, ⟨hm, hinst, hact⟩ | ⟨hm, ⟨-, hfinal⟩, hpot⟩⟩ := h
  · exact ⟨hd, Or.inl ⟨hm, hi _ hinst, ha _ hact⟩⟩
  · obtain ⟨p, hp⟩ := ne_none_iff_exists'.mp hpot
    have hset : c.event.data.respondWithPromise ≠ none := fun hno => hpot (hevent.pending hno).1
    obtain ⟨ret, v, hret, hv, hrest⟩ := hevent.settled hset
    rw [hp] at hrest
    obtain ⟨-, r, rfl, husable, -⟩ := hrest
    exact ⟨hd, Or.inr ⟨hm, ret, r, hret, hv, husable⟩⟩

theorem initMethod_ne_invokeMethod : initMethod ≠ invokeMethod := by decide

theorem refused_not_succeeds (h : Refused sh c) (hevent : EventOk sh c.event.data) (ha : sh.activate.Ok) : ¬Succeeds sh c := by
  rintro ⟨hd, hrest⟩
  obtain hno | ⟨hm, e, hact⟩ | ⟨hm, ⟨-, hfinal⟩, hpot⟩ := h
  · exact hno hd
  · rcases hrest with ⟨-, -, hful⟩ | ⟨hm', -⟩
    · rw [ha _ hact] at hful
      cases hful
    · exact initMethod_ne_invokeMethod (hm.symm.trans hm')
  · rcases hrest with ⟨hm', -⟩ | ⟨-, ret, r, hret, hv, husable⟩
    · exact initMethod_ne_invokeMethod (hm'.symm.trans hm)
    · rcases hfinal with hnone | hset
      · rw [hret] at hnone
        cases hnone
      · obtain ⟨ret', v, hret', hv', hrest⟩ := hevent.settled hset
        obtain rfl : ret = ret' := Option.some.inj (hret.symm.trans hret')
        obtain rfl := Option.some.inj (hv'.symm.trans hv)
        rw [hpot] at hrest
        exact hrest r rfl husable

/-! ## What a move keeps -/

/-- An event that is not final yet may change, but not what a chain that waits for it knows. -/
theorem CallOk.set_event (h : CallOk sh c) (hle : sh.Le sh') {event : FetchEvent P B E} (hok : EventOk sh' event.data)
    (hopen : ¬c.event.Final)
    (hkeep : c.event.dispatchFlag = false → event.dispatchFlag = false ∧ event.data.ret = c.event.data.ret) :
    CallOk sh' { c with event } where
  event := hok
  unanswered := h.unanswered
  fits := by
    have hfits := (h.mono hle).fits
    cases hs : c.stage with
    | install =>
      rw [hs] at hfits
      exact absurd ⟨by rw [hfits.2], Or.inl (by rw [hfits.2])⟩ hopen
    | activate =>
      rw [hs] at hfits
      exact hfits
    | respond waits =>
      rw [hs] at hfits
      obtain ⟨hm, hd, hflag, hwaits⟩ := hfits
      obtain ⟨hflag', hret⟩ := hkeep hflag
      refine ⟨hm, hd, hflag', ?_⟩
      rw [hret]
      exact hwaits
    | activated =>
      rw [hs] at hfits
      obtain ⟨hm, hd, hinit | ⟨-, hfinal, -⟩⟩ := hfits
      · exact ⟨hm, hd, Or.inl hinit⟩
      · exact absurd hfinal hopen
    | responded p =>
      rw [hs] at hfits
      exact absurd hfits.2.2.1 hopen
    | failed e =>
      rw [hs] at hfits
      obtain hd | hinit | ⟨-, hfinal, -⟩ := hfits
      · exact Or.inl hd
      · exact Or.inr (Or.inl hinit)
      · exact absurd hfinal hopen
    | answered =>
      rw [hs] at hfits
      obtain ⟨f, hf, ⟨hcode, ⟨hd, hinit | ⟨-, hfinal, -⟩⟩, hpiped⟩ | ⟨hcode, hd | hinit | ⟨-, hfinal, -⟩, hpiped⟩⟩ := hfits
      · refine ⟨f, hf, Or.inl ⟨hcode, ⟨hd, Or.inl hinit⟩, ?_⟩⟩
        have hm : c.request.method ≠ invokeMethod := fun hm => initMethod_ne_invokeMethod (hinit.1.symm.trans hm)
        rw [Call.pipes, if_neg hm] at hpiped
        rw [Call.pipes, if_neg hm]
        exact hpiped
      · exact absurd hfinal hopen
      · exact ⟨f, hf, Or.inr ⟨hcode, Or.inl hd, hpiped⟩⟩
      · exact ⟨f, hf, Or.inr ⟨hcode, Or.inr (Or.inl hinit), hpiped⟩⟩
      · exact absurd hfinal hopen

variable {stage : Stage B E}

/-- A call that goes on to another stage, with the same event. -/
theorem CallOk.set_stage (h : CallOk sh c) (hopen : c.stage ≠ .answered) (hfits : Fits sh c stage)
    (hstage : stage ≠ .answered) : CallOk sh { c with stage } where
  event := h.event
  unanswered _ := h.unanswered hopen
  fits := by
    cases stage with
    | answered => exact absurd rfl hstage
    | install => exact hfits
    | activate => exact hfits
    | respond waits => exact hfits
    | activated => exact hfits
    | responded p => exact hfits
    | failed e => exact hfits

/-- What a move may do to the rest: it takes at most its own id out of the table. -/
structure Moved (sh : Shared P B E) (c : Call P B E) (next : Shared P B E × Call P B E) : Prop where
  le : sh.Le next.1
  install : next.1.install.Ok
  activate : next.1.activate.Ok
  ok : CallOk next.1 next.2
  id : next.2.id = c.id
  request : next.2.request = c.request
  stays : next.2.stage ≠ .answered → c.stage ≠ .answered
  callbacks : next.1.callbacks = sh.callbacks ∨ next.2.stage = .answered ∧ c.stage ≠ .answered ∧ next.1.callbacks = sh.callbacks.erase c.id

variable {next : Shared P B E × Call P B E}

section Moves

variable (hi : sh.install.Ok) (ha : sh.activate.Ok) (h : CallOk sh c)

include hi ha h

theorem moved_stage (hopen : c.stage ≠ .answered) (hfits : Fits sh c stage) (hstage : stage ≠ .answered) :
    Moved sh c (sh, { c with stage }) where
  le := .refl sh
  install := hi
  activate := ha
  ok := h.set_stage hopen hfits hstage
  id := rfl
  request := rfl
  stays _ := hopen
  callbacks := Or.inl rfl

theorem moved_feedback (hopen : c.stage ≠ .answered) (hid : c.id ∈ sh.callbacks) {f : Feedback E} {piped : Option (Option Sid × Option B)}
    (hf : f.code = .ok ∧ Accepted sh c ∧ piped = c.pipes ∨ f.code = .internalError ∧ Refused sh c ∧ piped = none) :
    Moved sh c (feedback sh c f piped) where
  le := ⟨.refl _, .refl _, fun _ _ h => h⟩
  install := hi
  activate := ha
  ok := by
    obtain ⟨-, hnil, -⟩ := h.unanswered hopen
    refine ⟨h.event.mono ⟨.refl _, .refl _, fun _ _ h => h⟩, fun hno => absurd rfl hno, f, ?_, ?_⟩
    · simp [feedback, hnil]
    · simp only [feedback, if_pos hid]
      exact hf
  id := rfl
  request := rfl
  stays hno := absurd rfl hno
  callbacks := Or.inr ⟨rfl, hopen, rfl⟩

theorem answer_moved (hid : c.stage ≠ .answered → c.id ∈ sh.callbacks) (hs : answer sh c = some next) :
    Moved sh c next := by
  have hfits := h.fits
  unfold answer at hs
  split at hs
  · next hstage =>
    rw [hstage] at hfits
    have hopen : c.stage ≠ .answered := by simp [hstage]
    obtain rfl := Option.some.inj hs
    refine moved_feedback hi ha h hopen (hid hopen) (Or.inl ⟨rfl, hfits.2, ?_⟩)
    have hm : c.request.method ≠ invokeMethod := fun hm => initMethod_ne_invokeMethod (hfits.1.symm.trans hm)
    rw [Call.pipes, if_neg hm]
  · next hstage =>
    rw [hstage] at hfits
    obtain ⟨hm, hd, hfinal, hpot⟩ := hfits
    have hopen : c.stage ≠ .answered := by simp [hstage]
    obtain rfl := Option.some.inj hs
    exact moved_feedback hi ha h hopen (hid hopen) (Or.inr ⟨rfl, Or.inr (Or.inr ⟨hm, hfinal, hpot⟩), rfl⟩)
  · next r hstage =>
    rw [hstage] at hfits
    obtain ⟨hm, hd, hfinal, hpot⟩ := hfits
    have hopen : c.stage ≠ .answered := by simp [hstage]
    obtain rfl := Option.some.inj hs
    refine moved_feedback hi ha h hopen (hid hopen) (Or.inl ⟨rfl, ⟨hd, Or.inr ⟨hm, hfinal, by simp [hpot]⟩⟩, ?_⟩)
    rw [Call.pipes, if_pos hm, hpot]
    rfl
  · next e hstage =>
    rw [hstage] at hfits
    have hopen : c.stage ≠ .answered := by simp [hstage]
    obtain rfl := Option.some.inj hs
    exact moved_feedback hi ha h hopen (hid hopen) (Or.inr ⟨rfl, hfits, rfl⟩)
  · cases hs

theorem init_moved [DecidableEq B] (hasLocation : Bool) {listeners : List (Option E)}
    (hs : callStep hasLocation sh c (.init listeners) = some next) : Moved sh c next := by
  simp only [callStep] at hs
  split at hs
  · next hstage hinstall =>
    have hopen : c.stage ≠ .answered := by simp [hstage]
    obtain ⟨hm, hs⟩ := ite_none_right_eq_some.mp hs
    split at hs
    · next u event _ =>
      obtain rfl := Option.some.inj hs
      have hle : sh.Le { sh with activateEvent := event, activate := { sh.activate with resolved := true } } :=
        ⟨.refl _, ⟨fun _ => rfl, fun _ h => h⟩, fun _ _ h => h⟩
      exact ⟨hle, hi, ha, ⟨h.event.mono hle, fun _ => h.unanswered hopen, hm, rfl, hinstall, rfl⟩, rfl, rfl, fun _ => hopen, Or.inl rfl⟩
    · next e event _ =>
      obtain rfl := Option.some.inj hs
      have hle : sh.Le { sh with activateEvent := event } := ⟨.refl _, .refl _, fun _ _ h => h⟩
      exact ⟨hle, hi, ha, ⟨h.event.mono hle, fun _ => h.unanswered hopen, Or.inl (by simp)⟩, rfl, rfl, fun _ => hopen, Or.inl rfl⟩
  · cases hs

theorem invoke_moved [DecidableEq B] (hasLocation : Bool) {created : Option (Failure E)} {listeners : List (List (Act P E))}
    (hs : callStep hasLocation sh c (.invoke created listeners) = some next) : Moved sh c next := by
  have hfits := h.fits
  simp only [callStep] at hs
  split at hs
  · next hstage hinstall =>
    rw [hstage] at hfits
    have hopen : c.stage ≠ .answered := by simp [hstage]
    obtain ⟨hm, hs⟩ := ite_none_right_eq_some.mp hs
    cases created with
    | some e =>
      obtain rfl := Option.some.inj hs
      exact moved_stage hi ha h hopen (Or.inl (by simp [hfits.1])) (by simp)
    | none =>
      have hkeeps : EventOk sh (exec (doDispatchEvent (listeners.map fetchListener)) c.event).2.data :=
        doDispatchEvent_keeps (I := EventOk sh) (List.forall_mem_map.mpr fun acts _ => fetchListener_ok sh acts) c.event h.event
      simp only at hs
      split at hs
      · next u event hexec =>
        obtain rfl := Option.some.inj hs
        rw [hexec] at hkeeps
        have hflag : event.dispatchFlag = false := doDispatchEvent_flag (by rw [hfits.2]) hexec
        exact ⟨.refl sh, hi, ha, ⟨hkeeps, fun _ => h.unanswered hopen, hm, rfl, hflag, rfl⟩, rfl, rfl, fun _ => hopen, Or.inl rfl⟩
      · next e event hexec =>
        obtain rfl := Option.some.inj hs
        rw [hexec] at hkeeps
        exact ⟨.refl sh, hi, ha, ⟨hkeeps, fun _ => h.unanswered hopen, Or.inl (by simp)⟩, rfl, rfl, fun _ => hopen, Or.inl rfl⟩
  · cases hs

theorem reply_moved [DecidableEq B] (hasLocation : Bool)
    (hs : callStep hasLocation sh c .reply = some next) : Moved sh c next := by
  simp only [callStep] at hs
  split at hs
  · next v hnone hv =>
    obtain rfl := Option.some.inj hs
    obtain ⟨ret, hret, hv⟩ := bind_eq_some_iff.mp hv
    obtain ⟨hok, hsame⟩ := reply_ok hasLocation h.event hnone hret hv
    obtain ⟨locked, -, hsh, -⟩ := reply_shared hasLocation sh c.event.data v
    rw [hsh]
    have hle : sh.Le { sh with locked } := ⟨.refl _, .refl _, fun _ _ h => h⟩
    have hopen : ¬c.event.Final := by
      rintro ⟨-, hno | hset⟩
      · rw [hret] at hno
        cases hno
      · exact hset hnone
    have hcall : CallOk { sh with locked } { c with event := { c.event with data := (reply hasLocation sh c.event.data v).2 } } :=
      h.set_event hle (hok.mono hle) hopen fun hflag => ⟨hflag, hsame⟩
    exact ⟨hle, hi, ha, hcall, rfl, rfl, fun hno => hno, Or.inl rfl⟩
  · cases hs

theorem respondWith_moved (ret : P) : Moved sh c (sh, { c with event := (exec (respondWith ret) c.event).2 }) := by
  have hok : EventOk sh (exec (respondWith ret) c.event).2.data := respondWith_ok sh ret c.event h.event
  rcases respondWith_cases ret c.event with heq | ⟨hflag, -, -⟩
  · rw [heq]
    exact ⟨.refl sh, hi, ha, h, rfl, rfl, fun hno => hno, Or.inl rfl⟩
  · have hcall := h.set_event (.refl sh) hok (fun hfinal => by simp [hfinal.1] at hflag) fun hno => by simp [hno] at hflag
    exact ⟨.refl sh, hi, ha, hcall, rfl, rfl, fun hno => hno, Or.inl rfl⟩

theorem respondSettled_moved [DecidableEq B] (hasLocation : Bool)
    (hs : callStep hasLocation sh c .respondSettled = some next) : Moved sh c next := by
  have hfits := h.fits
  simp only [callStep] at hs
  split at hs
  · next hstage =>
    rw [hstage] at hfits
    obtain ⟨hm, hd, hflag, hwaits⟩ := hfits
    obtain rfl := Option.some.inj hs
    have hnone : c.event.data.ret = none := not_isSome_iff_eq_none.mp (by simp [← hwaits])
    exact moved_stage hi ha h (by simp [hstage]) ⟨hm, hd, ⟨hflag, Or.inl hnone⟩, rfl⟩ (by simp)
  · next hstage hset =>
    rw [hstage] at hfits
    obtain ⟨hm, hd, hflag, hwaits⟩ := hfits
    obtain rfl := Option.some.inj hs
    exact moved_stage hi ha h (by simp [hstage]) ⟨hm, hd, ⟨hflag, Or.inr (by simp [hset])⟩, rfl⟩ (by simp)
  · next e hstage hset =>
    rw [hstage] at hfits
    obtain ⟨hm, hd, hflag, hwaits⟩ := hfits
    obtain rfl := Option.some.inj hs
    have hpot : c.event.data.potentialResponse = none := by
      obtain ⟨ret, v, -, -, hrest⟩ := h.event.settled (by simp [hset])
      cases hp : c.event.data.potentialResponse with
      | none => rfl
      | some p =>
        rw [hp, hset] at hrest
        cases hrest.1
    exact moved_stage hi ha h (by simp [hstage]) (Or.inr (Or.inr ⟨hm, ⟨hflag, Or.inr (by simp [hset])⟩, hpot⟩)) (by simp)
  · cases hs

theorem callStep_moved [DecidableEq B] (hasLocation : Bool) (hid : c.stage ≠ .answered → c.id ∈ sh.callbacks) {move : Move P E}
    (hs : callStep hasLocation sh c move = some next) : Moved sh c next := by
  have hfits := h.fits
  cases move with
  | installFailed =>
    simp only [callStep] at hs
    split at hs
    · next e hstage _ =>
      rw [hstage] at hfits
      obtain rfl := Option.some.inj hs
      exact moved_stage hi ha h (by simp [hstage]) (Or.inl (by simp [hfits.1])) (by simp)
    · cases hs
  | init listeners => exact init_moved hi ha h hasLocation hs
  | invoke created listeners => exact invoke_moved hi ha h hasLocation hs
  | activateSettled =>
    simp only [callStep] at hs
    split at hs
    · next hstage hact =>
      rw [hstage] at hfits
      obtain ⟨hm, hd, hinst, -⟩ := hfits
      obtain rfl := Option.some.inj hs
      exact moved_stage hi ha h (by simp [hstage]) ⟨hm, hd, Or.inl ⟨hm, hinst, hact⟩⟩ (by simp)
    · next e hstage hact =>
      rw [hstage] at hfits
      obtain rfl := Option.some.inj hs
      exact moved_stage hi ha h (by simp [hstage]) (Or.inr (Or.inl ⟨hfits.1, e, hact⟩)) (by simp)
    · cases hs
  | reply => exact reply_moved hi ha h hasLocation hs
  | respondSettled => exact respondSettled_moved hi ha h hasLocation hs
  | answer => exact answer_moved hi ha h hid hs
  | respondWith ret =>
    obtain rfl := Option.some.inj hs
    exact respondWith_moved hi ha h ret

end Moves

end Aworker.AgentChannel.Trigger
