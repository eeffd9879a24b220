/-
  Aworker.Cache.Match — which stored entries a request matches, and what a batch of
  operations does to the entries (lib/cache.js: `requestMatchCachedItem`, `queryCache`,
  `batchCacheOperationsAtomicSteps`, `validateRequest`, `validateResponse`).

  `headers.get` throws for a field name that is not a legal header name, and the names a
  response lists in its `vary` header are looked up with it.

  - `match_total`: with legal field names the match is a boolean.
  Also `match_itself`.
-/

import Mathlib
import Aworker.Fetch.Body

namespace Aworker.Cache

open Aworker.Lib Aworker.Fetch

variable (P : Platform)

/-! ## Matching -/

structure CacheQueryOptions where
  ignoreMethod : Bool := false
  ignoreSearch : Bool := false
  ignoreVary : Bool := false
  deriving DecidableEq

def getOption (options : Option CacheQueryOptions) (name : CacheQueryOptions → Bool) : Bool := (options.map name).getD false

def vary : Text := "vary".toList

def star : Text := "*".toList

/-- `getHeadersFieldValues(headers, field)`; there are none without the header. -/
def fieldValues (headers : HeaderList) (field : Text) : List Text :=
  match dataGet headers field with
  | none => []
  | some value => fields isWhiteSpace ',' value

/-- `new URL(request.url)` -/
def newUrl (u : P.url.Url) : Except JsError P.url.Url :=
  match P.url.parse (P.url.href u) none with
  | none => typeError "Invalid URL"
  | some u => .ok u

def urlKey (options : Option CacheQueryOptions) (u : P.url.Url) : Text :=
  P.url.href (P.url.clearHash (if getOption options (·.ignoreSearch) then P.url.clearSearch u else u))

def varyMatches (query cached : Headers) : List Text → Except JsError Bool
  | [] => .ok true
  | fv :: fvs =>
    if fv = star then .ok false
    else do
      let q ← query.get fv
      let c ← cached.get fv
      if q ≠ c then .ok false else varyMatches query cached fvs

def requestMatchCachedItem (requestQuery cachedRequest : Request P) (cachedResponse : Option Response)
    (options : Option CacheQueryOptions) : Except JsError Bool :=
  if getOption options (·.ignoreMethod) = false ∧ requestQuery.method ≠ get then .ok false
  else do
    let queryUrl ← newUrl P requestQuery.url
    let cachedUrl ← newUrl P cachedRequest.url
    if urlKey P options queryUrl ≠ urlKey P options cachedUrl then .ok false
    else match cachedResponse with
      | none => .ok true
      | some response =>
        if getOption options (·.ignoreVary) ∨ dataHas response.headers.data vary = false then .ok true
        else varyMatches requestQuery.headers cachedRequest.headers (fieldValues response.headers.data vary)

/-- An element of `storage`; `store` is `response[responseArrayBufferStoreKey]`. -/
structure Entry where
  request : Request P
  response : Response
  store : Bytes

variable {P}

def matchEntry (q : Request P) (options : Option CacheQueryOptions) (e : Entry P) : Except JsError Bool :=
  requestMatchCachedItem P q e.request (some e.response) options

def queryCache (requestQuery : Request P) (options : Option CacheQueryOptions) : List (Entry P) → Except JsError (List (Request P × Response))
  | [] => .ok []
  | e :: storage => do
    let found ← matchEntry requestQuery options e
    if found then
      let request ← e.request.clone
      let response ← e.response.clone P
      let rest ← queryCache requestQuery options storage
      .ok ((request, response) :: rest)
    else queryCache requestQuery options storage

/-! ## Batches -/

inductive OpType where
  | delete
  | put
  deriving DecidableEq

variable (P) in
structure Operation where
  type : OpType
  request : Request P
  /-- with the buffer `batchCacheOperations` has put on it -/
  response : Option (Response × Bytes) := none
  options : Option CacheQueryOptions := none

def allowedProtocols : List Text := ["http:".toList, "https:".toList]

/-- The loop from the last entry to the first, splicing out what matches. -/
def removeMatched (q : Request P) (options : Option CacheQueryOptions) : List (Entry P) → Except JsError (List (Entry P))
  | [] => .ok []
  | e :: storage => do
    let storage ← removeMatched q options storage
    let found ← matchEntry q options e
    .ok (if found then storage else e :: storage)

/-- One turn of the loop over the operations: the storage and `addedItems`. -/
def atomicStep (op : Operation P) (storage addedItems : List (Entry P)) : Except JsError (List (Entry P) × List (Entry P)) := do
  if op.type = .delete ∧ op.response.isSome then typeError "Invalid cache delete operation"
  else do
    let added ← queryCache op.request op.options addedItems
    if added.length ≠ 0 then .error .invalidState
    else match op.type with
      | .delete => do
        let storage ← removeMatched op.request op.options storage
        .ok (storage, addedItems)
      | .put =>
        match op.response with
        | none => typeError "Cache put operation with nil response"
        | some (response, store) => do
          let url ← newUrl P op.request.url
          if P.url.protocol url ∉ allowedProtocols then
            .error (.typeError ("Unsupported protocol '".toList ++ P.url.protocol url ++ "' in cache".toList))
          else if op.request.method ≠ get then typeError "Unable to cache requests other than GET method"
          else if op.options.isSome then typeError "Invalid cache put operation"
          else do
            let storage ← removeMatched op.request op.options storage
            let item : Entry P := { request := op.request, response, store }
            .ok (storage ++ [item], addedItems ++ [item])

def batchCacheOperationsAtomicSteps : List (Operation P) → List (Entry P) → List (Entry P) → Except JsError (List (Entry P))
  | [], storage, _ => .ok storage
  | op :: operations, storage, addedItems => do
    let next ← atomicStep op storage addedItems
    batchCacheOperationsAtomicSteps operations next.1 next.2

/-! ## Validation -/

/-- `none` is a request that was not given. -/
def validateRequest (request : Option (Request P)) : Except JsError Unit :=
  match request with
  | none => .ok ()
  | some request => do
    let url ← newUrl P request.url
    if P.url.protocol url ∈ allowedProtocols then .ok () else typeError "Expect a request with http/https url"

def isOkStatus (status : JsNumber) : Bool := !status.ltInt 200 && !status.gtInt 299

def validateResponse (response : Response) : Except JsError Unit :=
  if response.type = .error ∨ isOkStatus response.status = false ∨ response.status.eqInt 206 then
    .error (.notCacheable response.status)
  else if star ∈ fieldValues response.headers.data vary then typeError "Vary with \"*\" is not cache-able."
  else .ok ()

/-! ## Field names -/

/-- `headers.get` does not throw for any field that a response with these headers varies on. -/
def varyLegal (headers : HeaderList) : Bool := (fieldValues headers vary).all fun fv => legalName (toLowerCase fv)

theorem fieldValues_noVary {headers : HeaderList} (h : dataHas headers vary = false) : fieldValues headers vary = [] := by
  have hnone : dataGet headers vary = none := by
    apply dataGet_none (by decide)
    intro x hx he
    exact List.any_eq_false.mp h x hx (by simpa using he)
  simp [fieldValues, hnone]

variable {fvs : List Text}

theorem varyMatches_total {q c : Headers} (h : ∀ fv ∈ fvs, legalName (toLowerCase fv) = true) :
    ∃ b, varyMatches q c fvs = .ok b := by
  induction fvs with
  | nil => exact ⟨true, rfl⟩
  | cons fv fvs ih =>
    have hl := h fv List.mem_cons_self
    obtain ⟨b, hb⟩ := ih fun x hx => h x (List.mem_cons_of_mem _ hx)
    simp only [varyMatches, Headers.get_legal _ hl, bind, Except.bind, hb]
    split
    · exact ⟨false, rfl⟩
    · split
      · exact ⟨false, rfl⟩
      · exact ⟨b, rfl⟩

theorem varyMatches_itself {h : Headers} (hstar : star ∉ fvs) :
    if fvs.all (fun fv => legalName (toLowerCase fv)) then varyMatches h h fvs = .ok true
    else ∃ e, varyMatches h h fvs = .error e := by
  induction fvs with
  | nil => simp [varyMatches]
  | cons fv fvs ih =>
    have hne : fv ≠ star := fun he => hstar (he ▸ List.mem_cons_self)
    have hrest := ih fun hm => hstar (List.mem_cons_of_mem _ hm)
    cases hl : legalName (toLowerCase fv) with
    | true =>
      have heq : varyMatches h h (fv :: fvs) = varyMatches h h fvs := by
        simp [varyMatches, hne, Headers.get_legal _ hl, bind, Except.bind]
      simpa [hl, heq] using hrest
    | false =>
      obtain ⟨e, he⟩ := h.get_illegal hl
      have heq : varyMatches h h (fv :: fvs) = .error e := by simp [varyMatches, hne, he, bind, Except.bind]
      simp [hl, heq]

variable (hU : P.url.Reparses)
include hU

theorem newUrl_ok (u : P.url.Url) : newUrl P u = .ok u := by simp [newUrl, hU _ _]

/-- The match, URLs parsed. -/
theorem match_eq (q c : Request P) (p : Response) (o : Option CacheQueryOptions) :
    requestMatchCachedItem P q c (some p) o =
      if (getOption o (·.ignoreMethod) = false ∧ q.method ≠ get) ∨ urlKey P o q.url ≠ urlKey P o c.url then .ok false
      else if getOption o (·.ignoreVary) then .ok true
      else varyMatches q.headers c.headers (fieldValues p.headers.data vary) := by
  by_cases hm : getOption o (·.ignoreMethod) = false ∧ q.method ≠ get
  · simp [requestMatchCachedItem, hm]
  · by_cases hk : urlKey P o q.url = urlKey P o c.url
    · cases hv : getOption o (·.ignoreVary) with
      | true => simp [requestMatchCachedItem, hm, hk, hv, newUrl_ok hU, bind, Except.bind]
      | false =>
        cases hd : dataHas p.headers.data vary with
        | true => simp [requestMatchCachedItem, hm, hk, hv, hd, newUrl_ok hU, bind, Except.bind]
        | false => simp [requestMatchCachedItem, hm, hk, hv, hd, fieldValues_noVary hd, varyMatches, newUrl_ok hU, bind, Except.bind]
    · simp [requestMatchCachedItem, hm, hk, newUrl_ok hU, bind, Except.bind]

variable {p : Response}

theorem match_total (q c : Request P) (hp : varyLegal p.headers.data = true) (o : Option CacheQueryOptions) :
    ∃ b, requestMatchCachedItem P q c (some p) o = .ok b := by
  obtain ⟨b, hb⟩ := varyMatches_total (q := q.headers) (c := c.headers) (List.all_eq_true.mp hp)
  rw [match_eq hU, hb]
  split
  · exact ⟨false, rfl⟩
  · split
    · exact ⟨true, rfl⟩
    · exact ⟨b, rfl⟩

/-- A stored request asked for again: the entry matches, or its field names throw. -/
theorem match_itself {r : Request P} (hm : r.method = get) (hstar : star ∉ fieldValues p.headers.data vary) :
    if varyLegal p.headers.data then requestMatchCachedItem P r r (some p) none = .ok true
    else ∃ e, requestMatchCachedItem P r r (some p) none = .error e := by
  have := varyMatches_itself (h := r.headers) hstar
  have heq : requestMatchCachedItem P r r (some p) none = varyMatches r.headers r.headers (fieldValues p.headers.data vary) := by
    rw [match_eq hU]
    simp [hm, getOption]
  rw [heq]
  exact this

end Aworker.Cache
