/-
  Aworker.Fetch.Body — `Request` and `Response` (lib/fetch/body.js), as far as the cache
  reads them.

  URL parsing is a parameter (`UrlApi`); `Reparses` is what the URL standard promises of it.
  A response's body is `null`, a string, a buffer or a stream; a stream is taken with
  what reading it to the end gives.

  Main results: `Request.rebuild`, `Response.new_plain`.
-/

import Mathlib
import Aworker.Fetch.Headers

namespace Aworker.Fetch

open Option

/-! ## The platform -/

/-- The parts of lib/url the cache uses. -/
structure UrlApi where
  Url : Type
  /-- `new URL(url, base)`; `none` is the thrown `TypeError` -/
  parse : Text → Option Text → Option Url
  href : Url → Text
  protocol : Url → Text
  /-- `url.search = ''` -/
  clearSearch : Url → Url
  /-- `url.hash = ''` -/
  clearHash : Url → Url

/-- A serialized URL is absolute and parses to the URL it was serialized from. -/
def UrlApi.Reparses (U : UrlApi) : Prop := ∀ u base, U.parse (U.href u) base = some u

/-- What the worker was started with: `--location`, and the page the worker runs at. -/
structure Platform where
  url : UrlApi
  hasLocation : Bool
  /-- `globalThis.location.href` -/
  location : Text

variable (P : Platform)

def typeError {α : Type} (message : String) : Except JsError α := .error (.typeError message.toList)

/-! ## Requests -/

structure Request where
  url : P.url.Url
  method : Text
  headers : Headers

/-- `byteUpperCase`, and upper case only for the methods that have it. -/
def normalizeMethod (m : Text) : Text :=
  let u := m.map fun c => if 'a' ≤ c ∧ c ≤ 'z' then c.toUpper else c
  if u ∈ ["DELETE".toList, "GET".toList, "HEAD".toList, "OPTIONS".toList, "POST".toList, "PUT".toList] then u else m

/-- `new Request(input, { method, headers })` -/
def Request.new (input method : Text) (headers : HeaderList) : Except JsError (Request P) :=
  match Headers.ofTuples headers with
  | .error e => .error e
  | .ok headers =>
    match P.url.parse input (some P.location) with
    | none => typeError "Invalid URL"
    | some url => .ok { url, headers, method := if method = [] then "GET".toList else normalizeMethod method }

/-- A clone's headers share the original's list. -/
def Request.clone (r : Request P) : Except JsError (Request P) :=
  match P.url.parse (P.url.href r.url) (some P.location) with
  | none => typeError "Invalid URL"
  | some url => .ok { url, headers := r.headers, method := if r.method = [] then "GET".toList else normalizeMethod r.method }

def get : Text := "GET".toList

theorem normalizeMethod_get : normalizeMethod get = get := by decide

variable {P}

theorem Request.clone_get (hU : P.url.Reparses) {r : Request P} (hm : r.method = get) : r.clone = .ok r := by
  cases r
  subst hm
  simp only [Request.clone, hU _ _, normalizeMethod_get]
  rfl

/-- A `GET` request built from what another one was written out as. -/
theorem Request.rebuild (hU : P.url.Reparses) (u : P.url.Url) {headers : HeaderList} (hh : HeadersOk headers) :
    ∃ h, Headers.ofTuples headers = .ok h ∧
      Request.new P (P.url.href u) get headers = .ok { url := u, method := get, headers := h } := by
  obtain ⟨h, he⟩ := ofTuples_isOk hh
  refine ⟨h, he, ?_⟩
  simp only [Request.new, he, hU _ _, normalizeMethod_get]
  rfl

variable (P)

/-! ## Responses -/

inductive BodySource where
  | null
  /-- a string, by its encoding -/
  | string (bytes : Bytes)
  | buffer (bytes : Bytes)
  /-- a stream, by what reading it to its end gives -/
  | stream (contents : Except JsError Bytes)

/-- `!!body`: of all sources only `null` and the empty string are falsy. -/
def BodySource.truthy : BodySource → Bool
  | .null => false
  | .string bytes => !bytes.isEmpty
  | .buffer _ => true
  | .stream _ => true

def BodySource.arrayBuffer : BodySource → Except JsError Bytes
  | .null => .ok []
  | .string bytes => .ok bytes
  | .buffer bytes => .ok bytes
  | .stream contents => contents

inductive ResponseType where
  | default
  | basic
  | cors
  | error
  | opaqueFiltered
  | opaqueRedirect
  deriving DecidableEq

structure Response where
  url : Text
  status : JsNumber
  headers : Headers
  type : ResponseType
  body : BodySource
  bodyUsed : Bool := false

/-- `init[platform_private_options_symbol]` -/
structure ExtraInit where
  type : Option ResponseType := none
  url : Text := []
  status : Option JsNumber := none

structure ResponseInit where
  status : Option JsNumber := none
  headers : HeaderList := []
  extra : ExtraInit := {}

def getDefaultResponseType : ResponseType := if P.hasLocation then .basic else .default

def nullBodyStatus : List Int := [101, 204, 205, 304]

def forbiddenResponseHeaders : List Text := ["set-cookie".toList, "set-cookie2".toList]

def corsSafelisted : List Text :=
  ["cache-control".toList, "content-language".toList, "content-length".toList, "content-type".toList, "expires".toList,
    "last-modified".toList, "pragma".toList]

def Headers.stripped (h : Headers) (drop : Text → Bool) : Headers :=
  ⟨strip drop h.data.length 0 h.data, h.ok.sublist (strip_sublist drop _ _ _)⟩

/-- `new Response(body, init)` -/
def Response.new (body : BodySource) (init : ResponseInit) : Except JsError Response :=
  let type := init.extra.type.getD (getDefaultResponseType P)
  let status := init.status.getD (.ofInt 200)
  match Headers.ofTuples init.headers with
  | .error e => .error e
  | .ok headers =>
    if init.status.isSome && (status.ltInt 200 || status.gtInt 599) then .error (.statusRange status)
    else if body.truthy && nullBodyStatus.any status.eqInt then typeError "Response with null body status cannot have body"
    else
      -- `extraInit.status || status`
      let final (s : JsNumber) : JsNumber := match init.extra.status with
        | none => s
        | some e => if e.eqInt 0 then s else e
      match type with
      | .error =>
        .ok { url := init.extra.url, status := final (.ofInt 0), headers := Headers.empty, type, body := .null }
      | .opaqueFiltered => .ok { url := [], status := final (.ofInt 0), headers := Headers.empty, type, body := .null }
      | .opaqueRedirect => .ok { url := [], status := final (.ofInt 0), headers := Headers.empty, type, body := .null }
      | .basic =>
        .ok { url := init.extra.url, status := final status, headers := headers.stripped forbiddenResponseHeaders.contains, type, body }
      | .cors =>
        .ok { url := init.extra.url, status := final status, headers := headers.stripped (!corsSafelisted.contains ·), type, body }
      | .default => .ok { url := init.extra.url, status := final status, headers, type, body }

def Response.clone (p : Response) : Except JsError Response :=
  if p.bodyUsed then typeError "Failed to execute 'clone' on 'Body': body is already used"
  else Response.new P p.body { status := some p.status, headers := p.headers.data, extra := { url := p.url } }

/-- The headers of a response whose type is not asked for. -/
def defaultHeaders (h : Headers) : Headers := if P.hasLocation then h.stripped forbiddenResponseHeaders.contains else h

variable {status : JsNumber} {tuples : HeaderList}

/-- A response that is built from a status, a header list and a url. -/
theorem Response.new_plain (body : BodySource) {headers : Headers} (url : Text)
    (hh : Headers.ofTuples tuples = .ok headers) (h1 : status.ltInt 200 = false) (h2 : status.gtInt 599 = false)
    (hb : (body.truthy && nullBodyStatus.any status.eqInt) = false) :
    Response.new P body { status := some status, headers := tuples, extra := { url } } =
      .ok { url, status, headers := defaultHeaders P headers, type := getDefaultResponseType P, body } := by
  simp only [Response.new, hh, isSome_some, getD_some, h1, h2, hb, Bool.or_self, Bool.and_false,
    Bool.false_eq_true, if_false, getD_none]
  cases hl : P.hasLocation <;> simp [getDefaultResponseType, defaultHeaders, hl]

variable {body : BodySource} {p : Response}

theorem Response.new_nullBody {init : ResponseInit} (h : Response.new P body init = .ok p) :
    (body.truthy && nullBodyStatus.any (init.status.getD (.ofInt 200)).eqInt) = false := by
  cases hb : (body.truthy && nullBodyStatus.any (init.status.getD (.ofInt 200)).eqInt) with
  | false => rfl
  | true =>
    simp only [Response.new, hb] at h
    split at h
    · cases h
    · split at h <;> cases h

theorem Response.new_inv {url : Text}
    (h : Response.new P body { status := some status, headers := tuples, extra := { url } } = .ok p) :
    ∃ headers, Headers.ofTuples tuples = .ok headers ∧
      p = { url, status, headers := defaultHeaders P headers, type := getDefaultResponseType P, body } := by
  cases hh : Headers.ofTuples tuples with
  | error e => simp [Response.new, hh] at h
  | ok headers =>
    have hnull := Response.new_nullBody P h
    have hrange : status.ltInt 200 = false ∧ status.gtInt 599 = false := by
      rw [← Bool.or_eq_false_iff]
      by_contra hr
      simp [Response.new, hh, eq_true_of_ne_false hr] at h
    rw [Response.new_plain P body url hh hrange.1 hrange.2 hnull] at h
    exact ⟨headers, rfl, (Except.ok.inj h).symm⟩

theorem defaultHeaders_get (h : Headers) {key : Text} (hk : key ∉ forbiddenResponseHeaders) :
    dataGet (defaultHeaders P h).data key = dataGet h.data key := by
  unfold defaultHeaders
  split
  · exact strip_keeps (by simpa using hk) _ _ _
  · rfl

theorem defaultHeaders_none {h : Headers} (hn : ∀ x ∈ h.data, x.1 ∉ forbiddenResponseHeaders) : defaultHeaders P h = h := by
  unfold defaultHeaders
  split
  · exact Headers.ext (strip_none (fun x hx => by simpa using hn x hx) _ _)
  · rfl

end Aworker.Fetch
