/-
  Aworker.Fetch.World — `Request` and `Response` objects with what they share: `Headers` objects,
  streams and abort signals (lib/fetch/body.js, lib/fetch/fetch.js).

  The constructors, `Response.clone` and `fetch` are computations on the world. What they do
  before they throw stays done. `step` is what a worker does with the objects: it makes them,
  changes headers, reads streams, aborts controllers, clones responses.

  A stream is taken with what reading it to its end gives from here on. `tee` gives two streams
  with the contents of the first, which stays locked. The driver that sends a request is the
  environment: it answers with a status, a text, pairs and a stream or no body.
-/

import Mathlib
import Aworker.Lib.Effects
import Aworker.Dom.AbortSignal
import Aworker.Fetch.Body
import Aworker.Fetch.Filter

namespace Aworker.Fetch.Shared

open Aworker.Lib Aworker.Lib.CopyOnWrite Aworker.Dom.Signal

/-! ## Values -/

/-- `init.status` -/
inductive StatusArg where
  | undefined
  | number (x : Num)
  /-- a value of another type, by what `Number` makes of it -/
  | other (x : Num)
  deriving DecidableEq

/-- `init.status === undefined ? 200 : Number(init.status || 0)` -/
def StatusArg.value : StatusArg → Num
  | .undefined => .ofInt 200
  | .number x => x.or (.ofInt 0)
  | .other x => x

inductive Thrown where
  | js (e : JsError)
  /-- `RangeError`: `The status provided (given) is outside the range [200, 599]` -/
  | statusRange (given : StatusArg)
  /-- `Error`: `Bad owner body type: constructor` -/
  | badBody (owner constructor : Text)
  /-- `createAbortError()` -/
  | abort
  deriving DecidableEq

def typeErr (message : String) : Thrown := .js (.typeError message.toList)

def bodyUsedError : Thrown := typeErr "Failed to execute 'clone' on 'Body': body is already used"

/-! ## Bodies -/

structure Stream where
  contents : Except JsError Bytes
  disturbed : Bool := false
  locked : Bool := false

/-- `init.body` of a request, and `body` of a response. -/
inductive BodyInit where
  /-- `null` or `undefined` -/
  | none
  /-- `false`, `0` or `NaN` -/
  | falsy
  /-- a string, by its encoding -/
  | string (bytes : Bytes)
  /-- a typed array or an `ArrayBuffer`, by its bytes -/
  | buffer (bytes : Bytes)
  /-- a `URLSearchParams`, by the encoding of its text -/
  | params (bytes : Bytes)
  /-- a `FormData`, by the encoding of its text, what the builder writes for it and the boundary -/
  | form (text written : Bytes) (boundary : Text)
  /-- a `Blob` or a `File` -/
  | blob (constructor : Text) (bytes : Bytes) (type : Text)
  | stream (k : Nat)
  | other (constructor : Text)

def BodyInit.truthy : BodyInit → Bool
  | .none | .falsy => false
  | .string bytes => !bytes.isEmpty
  | _ => true

/-- `_bodySource` -/
inductive Source where
  | null
  | string (bytes : Bytes)
  | buffer (bytes : Bytes)
  | stream (k : Nat)

def Source.toInit : Source → BodyInit
  | .null => .none
  | .string bytes => .string bytes
  | .buffer bytes => .buffer bytes
  | .stream k => .stream k

/-- `validateBodyType` and what the constructor of `Body` stores. -/
def BodyInit.source (owner : Text) : BodyInit → Except Thrown Source
  | .none => .ok .null
  | .falsy => .ok (.buffer [])
  | .string bytes => .ok (.string bytes)
  | .buffer bytes => .ok (.buffer bytes)
  | .params bytes => .ok (.buffer bytes)
  | .form text _ _ => .ok (.buffer text)
  | .stream k => .ok (.stream k)
  | .blob constructor _ _ => .error (.badBody owner constructor)
  | .other constructor => .error (.badBody owner constructor)

/-- What `Request` and `Response` have of `Body`. -/
structure Body where
  bodySource : Source
  /-- `_stream` -/
  stream : Option Nat := none

/-! ## The objects -/

structure Request extends Body where
  /-- the `Headers` object -/
  headers : Nat
  method : Text
  url : Text
  credentials : Text
  signal : Nat

structure Response extends Body where
  headers : Nat
  url : Text
  status : Num
  statusText : Text
  redirected : Bool
  type : ResponseType

def Request.withBody (r : Request) (b : Body) : Request := { r with toBody := b }

def Response.withBody (p : Response) (b : Body) : Response := { p with toBody := b }

structure World where
  objects : State := .start
  streams : List Stream := []
  signals : Signals := []
  requests : List Request := []
  responses : List Response := []

namespace World

def heap (w : World) : Heap := w.objects.heap

def setHeap (w : World) (h : Heap) : World := { w with objects := { w.objects with heap := h } }

def guard (w : World) (i : Nat) : Guard := w.objects.guards.getD i .none

/-- The entries of a `Headers` object. -/
def list (w : World) (i : Nat) : HeaderList := w.objects.list i

/-- `headers[headersData][headersDataUnique]` -/
def unique (w : World) (i : Nat) : Bool := (w.heap.arrays (headersData w.heap i)).unique

def getStream (w : World) (k : Nat) : Stream := w.streams.getD k { contents := .ok [] }

/-- What reading the source to its end gives, as `arrayBuffer` does it. -/
def read (w : World) : Source → Except JsError Bytes
  | .null => .ok []
  | .string bytes => .ok bytes
  | .buffer bytes => .ok bytes
  | .stream k => if (w.getStream k).locked then .error (.typeError "stream is locked.".toList) else (w.getStream k).contents

end World

abbrev Script (α : Type) : Type := Eff Thrown World α

/-! ## `Headers` objects -/

inductive HeadersInit where
  | undefined
  | null
  /-- pairs, or the entries of a record -/
  | tuples (l : HeaderList)
  | object (i : Nat)

def onHeap (f : Heap → Except JsError Heap) : Script Unit := do
  let w ← getThe World
  match f w.heap with
  | .error e => throw (.js e)
  | .ok h => modify fun w => w.setHeap h

def pushGuard : Script Unit := modify fun w => { w with objects := { w.objects with guards := w.objects.guards ++ [.none] } }

def newHeaders (init : HeaderList) : Script Nat := do
  let w ← getThe World
  onHeap (construct init)
  pushGuard
  pure w.heap.owners.length

def shareHeaders (i : Nat) : Script Nat := do
  let w ← getThe World
  onHeap fun h => .ok (h.share (headersData h i))
  pushGuard
  pure w.heap.owners.length

/-- `new Headers(init)` -/
def newHeadersOf : HeadersInit → Script Nat
  | .undefined => newHeaders []
  | .null => throw (typeErr "Failed to construct 'Headers'; The provided value was not valid")
  | .tuples l => newHeaders l
  | .object i => shareHeaders i

/-- `headers[headersGuardKey] = guard` -/
def setGuard (i : Nat) (guard : Guard) : Script Unit :=
  modify fun w => { w with objects := { w.objects with guards := w.objects.guards.set i guard } }

def writeHeaders (i : Nat) (f : Heap → Nat → Guard → Except JsError Heap) : Script Unit := do
  let w ← getThe World
  onHeap fun h => f h i (w.guard i)

/-! ## Bodies -/

def newStream (contents : Except JsError Bytes) : Script Nat := do
  let w ← getThe World
  modify fun w => { w with streams := w.streams ++ [{ contents := contents }] }
  pure w.streams.length

/-- `get body()`; what it stores in the object is returned with it. -/
def getBody (b : Body) : Script (Body × Option Nat) :=
  match b.stream, b.bodySource with
  | some k, _ => pure (b, some k)
  | none, .null => pure (b, none)
  | none, .string [] => pure (b, none)
  | none, .stream k => pure ({ b with stream := some k }, some k)
  | none, .string bytes | none, .buffer bytes => do
    let k ← newStream (.ok bytes)
    pure ({ b with stream := some k }, some k)

/-- `get bodyUsed()` -/
def bodyUsed (b : Body) : Script (Body × Bool) := do
  let (b, k) ← getBody b
  let w ← getThe World
  pure (b, k.elim false fun k => (w.getStream k).disturbed)

/-! ## `new Response(body, init)` -/

/-- `init[platform_private_options_symbol]` -/
structure ExtraInit where
  type : Option ResponseType := none
  url : Text := []
  status : Option Num := none
  redirected : Bool := false

structure ResponseInit where
  status : StatusArg := .undefined
  statusText : Option Text := none
  headers : HeadersInit := .undefined
  extra : ExtraInit := {}

structure Draft where
  url : Text
  status : Num
  statusText : Text
  headers : Nat
  body : BodyInit

/-- The names that are filtered from a response of this type. -/
def dropped : ResponseType → Text → Bool
  | .basic, name => forbiddenResponseHeaders.contains name
  | .cors, name => !corsSafelisted.contains name
  | _, _ => false

def applyType (type : ResponseType) (d : Draft) : Script Draft :=
  match type with
  | .error => do
    let headers ← newHeaders []
    pure { d with status := .ofInt 0, statusText := [], headers := headers, body := .none }
  | .basic | .cors => do
    writeHeaders d.headers (filterHeaders (dropped type))
    pure d
  | .opaqueFiltered | .opaqueRedirect => do
    let headers ← newHeaders []
    pure { url := [], status := .ofInt 0, statusText := [], headers := headers, body := .none }
  | .default => pure d

/-- `init.headers instanceof Headers ? init.headers : new Headers(init.headers)` -/
def chosenHeaders : HeadersInit → Script Nat
  | .object i => pure i
  | init => newHeadersOf init

variable (P : Platform)

def getDefaultResponseHeaderGuard : Guard := if P.hasLocation then .response else .none

def newResponse (body : BodyInit) (init : ResponseInit) : Script Response := do
  let type := init.extra.type.getD (getDefaultResponseType P)
  let status := init.status.value
  let headers ← chosenHeaders init.headers
  throwIf (init.status ≠ .undefined ∧ (status.ltInt 200 ∨ status.gtInt 599)) (.statusRange init.status)
  throwIf (body.truthy ∧ nullBodyStatus.any status.eqInt) (typeErr "Response with null body status cannot have body")
  let d ← applyType type { url := init.extra.url, status := status, statusText := init.statusText.getD [], headers := headers, body := body }
  setGuard d.headers (getDefaultResponseHeaderGuard P)
  let source ← ofExcept (d.body.source "Response".toList)
  pure {
    bodySource := source, headers := d.headers, url := d.url, status := (init.extra.status.getD .nan).or d.status
    statusText := d.statusText, redirected := init.extra.redirected, type := type }

/-! ## `Response.clone` -/

def getResponse (k : Nat) : Script Response := do
  let w ← getThe World
  match w.responses[k]? with
  | some p => pure p
  | none => throw (typeErr "Illegal invocation")

def setResponse (k : Nat) (p : Response) : Script Unit := modify fun w => { w with responses := w.responses.set k p }

def responseUsed (k : Nat) : Script Bool := do
  let p ← getResponse k
  let (b, used) ← bodyUsed p.toBody
  setResponse k (p.withBody b)
  pure used

/-- `readableStreamTee` -/
def tee (k : Nat) : Script (Nat × Nat) := do
  let w ← getThe World
  throwIf (w.getStream k).locked (typeErr "stream is locked.")
  modify fun w => { w with streams := w.streams.set k { w.getStream k with locked := true } }
  let branch1 ← newStream (w.getStream k).contents
  let branch2 ← newStream (w.getStream k).contents
  pure (branch1, branch2)

def teeBody (k : Nat) (p : Response) : Script BodyInit :=
  match p.bodySource with
  | .stream s => do
    let tees ← tee s
    setResponse k (p.withBody { bodySource := .stream tees.1, stream := some tees.1 })
    pure (.stream tees.2)
  | source => pure source.toInit

def clone (k : Nat) : Script Response := do
  let used ← responseUsed k
  throwIf used bodyUsedError
  let p ← getResponse k
  let w ← getThe World
  let resBody ← teeBody k p
  let headers ← newHeaders (w.list p.headers)
  newResponse P resBody { status := .number p.status, statusText := some p.statusText, headers := .object headers, extra := { url := p.url } }

/-! ## `new Request(input, init)` -/

inductive RequestInput where
  | request (k : Nat)
  /-- any other value, by what `String` makes of it -/
  | other (text : Text)

structure RequestInit where
  body : BodyInit := .none
  headers : HeadersInit := .undefined
  method : Option Text := none
  signal : Option Nat := none
  credentials : Option Text := none

def HeadersInit.truthy : HeadersInit → Bool
  | .undefined | .null => false
  | _ => true

def getRequest (k : Nat) : Script Request := do
  let w ← getThe World
  match w.requests[k]? with
  | some r => pure r
  | none => throw (typeErr "Illegal invocation")

def setRequest (k : Nat) (r : Request) : Script Unit := modify fun w => { w with requests := w.requests.set k r }

/-- `input.body` -/
def requestBody (k : Nat) : Script (Option Nat) := do
  let r ← getRequest k
  let (b, stream) ← getBody r.toBody
  setRequest k (r.withBody b)
  pure stream

def requestUsed (k : Nat) : Script Bool := do
  let r ← getRequest k
  let (b, used) ← bodyUsed r.toBody
  setRequest k (r.withBody b)
  pure used

def checkUnused (k : Nat) : Script Unit := do
  let used ← requestUsed k
  throwIf used bodyUsedError

def inputBody (k : Nat) : Script BodyInit := do
  let r ← getRequest k
  if r.bodySource.toInit.truthy then do
    checkUnused k
    pure r.bodySource.toInit
  else do
    match ← requestBody k with
    | none => pure .none
    | some stream => do
      checkUnused k
      pure (.stream stream)

def initBody (input : RequestInput) (body : BodyInit) : Script BodyInit :=
  if body.truthy then pure body
  else match input with
    | .request k => inputBody k
    | .other _ => pure .none

def initHeaders (input : RequestInput) (init : HeadersInit) : Script Nat :=
  if init.truthy then newHeadersOf init
  else match input with
    | .request k => do
      let r ← getRequest k
      pure r.headers
    | .other _ => newHeaders []

def contentType : Text := "content-type".toList

/-- The body and the `Content-Type` that are extracted when no such header is there; the bytes of a
    `Blob` have no `type`. -/
def extract : BodyInit → BodyInit × Option Text
  | .string bytes => (.string bytes, some "text/plain;charset=UTF-8".toList)
  | .params bytes => (.params bytes, some "application/x-www-form-urlencoded;charset=UTF-8".toList)
  | .blob _ bytes _ => (.buffer bytes, none)
  | .form _ written boundary => (.buffer written, some ("multipart/form-data; boundary=".toList ++ boundary))
  | body => (body, none)

/-- The body as it is stored; the header is set on the way. -/
def extractBody (headers : Nat) (body : BodyInit) : Script BodyInit := do
  let w ← getThe World
  if body.truthy ∧ ¬dataHas (w.list headers) contentType then
    match extract body with
    | (body, none) => pure body
    | (body, some type) => do
      writeHeaders headers (Shared.set contentType type)
      pure body
  else pure body

/-- What the rest of the constructor takes from the input: the method, the url, the headers, the
    credentials, the stream and the signal. -/
structure Taken where
  method : Text := Fetch.get
  url : Text
  headers : Nat
  credentials : Text := "omit".toList
  stream : Option Nat := none
  signal : Option Nat

def takeInput (input : RequestInput) (headers : Nat) (signal : Option Nat) : Script Taken :=
  match input with
  | .request k => do
    checkUnused k
    let r ← getRequest k
    let copy ← shareHeaders r.headers
    pure { method := r.method, url := r.url, headers := copy, credentials := r.credentials, stream := r.stream, signal := some r.signal }
  | .other text =>
    match P.url.parse text (some P.location) with
    | none => throw (typeErr "Invalid URL")
    | some url => pure { url := P.url.href url, headers := headers, signal := signal }

def getDefaultRequestHeaderGuard : Guard := if P.hasLocation then .request else .none

/-- `init.method`, if it is not empty. -/
def chosenMethod (old : Text) : Option Text → Text
  | some m => if m = [] then old else normalizeMethod m
  | none => old

def isNull : BodyInit → Bool
  | .none => true
  | _ => false

def followSignal (signal : Option Nat) : Script Nat := do
  let w ← getThe World
  modify fun w => { w with signals := createFollowingSignal signal w.signals }
  pure w.signals.length

def credentialsModes : List Text := ["omit".toList, "same-origin".toList, "include".toList]

def chosenCredentials (old : Text) : Option Text → Text
  | some c => if c ∈ credentialsModes then c else old
  | none => old

/-- From `super(initBody, ..)` on. -/
def finishRequest (input : RequestInput) (init : RequestInit) (headers : Nat) (body : BodyInit) : Script Request := do
  let source ← ofExcept (body.source "Request".toList)
  let taken ← takeInput P input headers init.signal
  let method := chosenMethod taken.method init.method
  throwIf (isNull body = false ∧ method ∈ ["GET".toList, "HEAD".toList]) (typeErr "Request with GET/HEAD method cannot have body.")
  let signal ← followSignal taken.signal
  pure {
    bodySource := source, stream := taken.stream, headers := taken.headers, method := method, url := taken.url
    credentials := chosenCredentials taken.credentials init.credentials, signal := signal }

def newRequest (input : RequestInput) (init : RequestInit) : Script Request := do
  let body ← initBody input init.body
  let headers ← initHeaders input init.headers
  setGuard headers (getDefaultRequestHeaderGuard P)
  let body ← extractBody headers body
  finishRequest P input init headers body

/-! ## `fetch` -/

structure FetchResponse where
  status : Num
  statusText : Text
  headers : HeaderList
  body : Option (Except JsError Bytes)

/-- `init.redirect` -/
inductive Redirect where
  | error
  | manual
  | follow

def allowedProtocols : List Text := ["http:".toList, "https:".toList]

def redirectStatus : List Int := [301, 302, 303, 307, 308]

def parseUrl (url : Text) (base : Option Text) : Script P.url.Url :=
  match P.url.parse url base with
  | none => throw (typeErr "Invalid URL")
  | some u => pure u

def responseBody : Option (Except JsError Bytes) → Script BodyInit
  | none => pure .none
  | some contents => do
    let k ← newStream contents
    pure (.stream k)

def isHttp (url : Text) : Bool := "http://".toList.isPrefixOf url || "https://".toList.isPrefixOf url

def redirectTo (location url : Text) : Script Text :=
  if isHttp location then pure location
  else do
    let u ← parseUrl P location (some url)
    pure (P.url.href u)

/-- `new Response(null, responseInit)` with the type `error` -/
def networkError (init : ResponseInit) : Script Response := newResponse P .none { init with extra := { type := some .error } }

/-- The loop with the answers that come; it waits for more when they are used up. -/
def fetchLoop (redirect : Redirect) : Nat → Text → Bool → ResponseInit → List FetchResponse → Script (Option Response)
  | 0, _, _, responseInit, _ => some <$> networkError P responseInit
  | rem + 1, url, redirected, _, answers => do
    let u ← parseUrl P url none
    throwIf (P.url.protocol u ∉ allowedProtocols) (typeErr "Unsupported protocols")
    match answers with
    | [] => pure none
    | answer :: answers => do
      let body ← responseBody answer.body
      let responseInit : ResponseInit := {
        status := .number (.ofInt 200), statusText := some answer.statusText, headers := .tuples answer.headers
        extra := { redirected := redirected, status := some answer.status, url := url } }
      let response ← newResponse P body responseInit
      if redirectStatus.any answer.status.eqInt then
        match redirect with
        | .error => some <$> networkError P {}
        | .manual => pure (some response)
        | .follow => do
          let w ← getThe World
          match dataGet (w.list response.headers) "location".toList with
          | none => pure (some response)
          | some location => do
            let url ← redirectTo P location url
            fetchLoop redirect rem url true responseInit answers
      else pure (some response)

def fetch (input : RequestInput) (init : RequestInit) (redirect : Redirect) (answers : List FetchResponse) : Script (Option Response) := do
  let request ← newRequest P input init
  let _ ← getBody request.toBody
  let w ← getThe World
  throwIf (isAborted w.signals request.signal) .abort
  fetchLoop P redirect 20 request.url false {} answers

/-! ## What a worker does -/

inductive Event where
  | headers (op : Op)
  /-- `new AbortController()` -/
  | controller
  | abort (s : Nat)
  | stream (contents : Except JsError Bytes)
  | getReader (k : Nat)
  /-- `n` bytes come out of the reader -/
  | read (k n : Nat)
  | releaseLock (k : Nat)
  | cancel (k : Nat)
  | request (input : RequestInput) (init : RequestInit)
  | response (body : BodyInit) (init : ResponseInit)
  | fetch (input : RequestInput) (init : RequestInit) (redirect : Redirect) (answers : List FetchResponse)
  | clone (k : Nat)

namespace World

def onStream (w : World) (k : Nat) (f : Stream → Stream) : World := { w with streams := w.streams.modify k f }

/-! The arguments are objects that are there. -/

def hasHeaders (w : World) : HeadersInit → Bool
  | .object i => i < w.heap.owners.length
  | _ => true

def hasBody (w : World) : BodyInit → Bool
  | .stream k => k < w.streams.length
  | _ => true

def hasInput (w : World) : RequestInput → Bool
  | .request k => k < w.requests.length
  | .other _ => true

def hasInit (w : World) (init : RequestInit) : Bool := w.hasHeaders init.headers && w.hasBody init.body && init.signal.all (· < w.signals.length)

def addRequest : Except Thrown Request × World → World
  | (.ok r, w) => { w with requests := w.requests ++ [r] }
  | (.error _, w) => w

def addResponse : Except Thrown (Option Response) × World → World
  | (.ok (some p), w) => { w with responses := w.responses ++ [p] }
  | (_, w) => w

def step (w : World) : Event → Option World
  | .headers op => (w.objects.step op).map fun s => { w with objects := s }
  | .controller => (Dom.Signal.step w.signals .controller).map fun l => { w with signals := l }
  | .abort s => (Dom.Signal.step w.signals (.abort s)).map fun l => { w with signals := l }
  | .stream contents => some (exec (newStream contents) w).2
  | .getReader k => some (w.onStream k fun s => { s with locked := true })
  | .read k n => some (w.onStream k fun s => if s.locked then { s with disturbed := true, contents := s.contents.map (List.drop n) } else s)
  | .releaseLock k => some (w.onStream k fun s => { s with locked := false })
  | .cancel k => some (w.onStream k fun s => if s.locked then s else { s with disturbed := true, contents := .ok [] })
  | .request input init => if w.hasInput input && w.hasInit init then some (addRequest (exec (newRequest P input init) w)) else none
  | .response body init =>
    if w.hasBody body && w.hasHeaders init.headers then some (addResponse (exec (some <$> newResponse P body init) w)) else none
  | .fetch input init redirect answers =>
    if w.hasInput input && w.hasInit init then some (addResponse (exec (fetch P input init redirect answers) w)) else none
  | .clone k => if k < w.responses.length then some (addResponse (exec (some <$> clone P k) w)) else none

end World

end Aworker.Fetch.Shared
