/-
  Aworker.Cache.Store — a cache's files and the calls on it (lib/cache.js: class `Cache`;
  aworker_cache.cc: `ReadCachePage`, `WriteCachePage`, `ReadCacheObjectPage`,
  `WriteCacheObjectPage`; aworker_cache.proto).

  A cache is an index page with one item for each entry, and one object page for each
  entry, under a file name that hashes the entry's request. Every call reads the index and
  all object pages and builds their requests and responses anew; `put` and `delete` write
  all of them back. Each call is taken as a whole here.

  `put` accepts any status from 200 to 299 but 206, and any `vary` header without `*`.
  The reader needs more: the constructor throws for a body with status 204 or 205, and
  `headers.get` for an illegal field name.

  - `readItems_ok`: every entry of sound files can be built.
  - `preparePut_ok` / `put_ok`: what it takes for `put` to be accepted, and what it writes.
  - `sound_write`: files written from entries that can be read again are sound.
-/

import Mathlib
import Aworker.Cache.Match
import Aworker.Lib.Run

namespace Aworker.Cache

open Aworker.Lib Aworker.Fetch
open List hiding get

/-! ## Pages -/

/-- Header lists stand for the pages' lists of `KeyValuePair`. -/
structure CachedEntry where
  url : Text
  reqMethod : Text
  reqHeaders : HeaderList
  vary : Text
  cacheObjectFilename : Text

structure CachePage where
  entries : List CachedEntry

structure CachedRequest where
  url : Text
  method : Text
  headers : HeaderList

structure CachedResponse where
  url : Text
  status : Int
  headers : HeaderList
  body : Bytes

structure CacheObjectPage where
  request : CachedRequest
  response : CachedResponse

structure Disk where
  index : Option CachePage := none
  objects : Text → Option CacheObjectPage := fun _ => none

variable {P : Platform} (hash : Text → Text)

/-- The text `PathForCacheObjectPage` hashes. -/
def objectKey (method url : Text) (headers : HeaderList) : Text :=
  method ++ " ".toList ++ url ++ "\n".toList ++ headers.flatMap fun h => h.1 ++ ": ".toList ++ h.2 ++ "\n".toList

/-- `hash` is `CityHash128` in its path-safe encoding; the directory is the cache's own. -/
def pathForCacheObjectPage (method url : Text) (headers : HeaderList) : Text := hash (objectKey method url headers) ++ ".data".toList

def Entry.path (e : Entry P) : Text := pathForCacheObjectPage hash e.request.method (P.url.href e.request.url) e.request.headers.data

def Entry.item (e : Entry P) : CachedEntry where
  url := P.url.href e.request.url
  reqMethod := e.request.method
  reqHeaders := e.request.headers.data
  vary := (dataGet e.response.headers.data vary).getD []
  cacheObjectFilename := e.path hash

def Entry.objectPage (e : Entry P) : CacheObjectPage where
  request := { url := P.url.href e.request.url, method := e.request.method, headers := e.request.headers.data }
  response :=
    { url := e.response.url, status := e.response.status.toInt32, headers := e.response.headers.data, body := e.store }

/-! ## Reading and writing all entries -/

variable (P) in
/-- One turn of the loop of `readCacheFullStorage`. `none` is an item it skips. -/
def readItem (d : Disk) (item : CachedEntry) : Except JsError (Option (Entry P)) := do
  let request ← Request.new P item.url item.reqMethod item.reqHeaders
  match d.objects item.cacheObjectFilename with
  | none => .error (.typeError ("unable to read cache object page: file not found(".toList ++ item.cacheObjectFilename ++ ")".toList))
  | some page =>
    if page.response.url = [] ∧ page.response.status = 0 then .ok none
    else do
      let response ← Response.new P (.buffer page.response.body)
        { status := some (.ofInt page.response.status), headers := page.response.headers, extra := { url := page.response.url } }
      .ok (some { request, response, store := page.response.body })

variable (P) in
def readItems (d : Disk) : List CachedEntry → Except JsError (List (Entry P))
  | [] => .ok []
  | item :: items => do
    let entry ← readItem P d item
    let rest ← readItems d items
    .ok (entry.toList ++ rest)

/-- A page that cannot be read counts as empty. -/
def Disk.items (d : Disk) : List CachedEntry := (d.index.map CachePage.entries).getD []

variable (P) in
def readCacheFullStorage (d : Disk) : Except JsError (List (Entry P)) := readItems P d d.items

def writeObjects : List (Entry P) → (Text → Option CacheObjectPage) → Text → Option CacheObjectPage
  | [], objects => objects
  | e :: storage, objects => writeObjects storage (Function.update objects (e.path hash) (some e.objectPage))

/-- `writeCachePage` and `writeCacheObjectPages` -/
def writeStorage (storage : List (Entry P)) (d : Disk) : Disk where
  index := some { entries := storage.map (Entry.item hash) }
  objects := writeObjects hash storage d.objects

/-! ## The calls -/

def batchCacheOperations (operations : List (Operation P)) (d : Disk) : Except JsError Disk := do
  let storage ← readCacheFullStorage P d
  let storage ← batchCacheOperationsAtomicSteps operations storage []
  .ok (writeStorage hash storage d)

/-- `put` up to the lock. -/
def preparePut (request : Request P) (response : Response) : Except JsError (Operation P) := do
  validateRequest (some request)
  validateResponse response
  if response.bodyUsed then typeError ""
  else do
    let clonedResponse ← response.clone P
    let _ ← response.body.arrayBuffer
    let store ← clonedResponse.body.arrayBuffer
    .ok { type := .put, request, response := some (clonedResponse, store) }

def put (request : Request P) (response : Response) (d : Disk) : Except JsError Disk := do
  let op ← preparePut request response
  batchCacheOperations hash [op] d

def delete (request : Request P) (options : Option CacheQueryOptions) (d : Disk) : Except JsError Disk := do
  validateRequest (some request)
  batchCacheOperations hash [{ type := .delete, request, options }] d

/-- `sharedResourceFetch` with what `fetch` returned. The constructor gets the headers object
    itself, whose guard keeps it from deleting anything. -/
def sharedResponse (response : Response) : Except JsError (Response × Bytes) := do
  validateResponse response
  let body ← response.body.arrayBuffer
  if nullBodyStatus.any response.status.eqInt then typeError "Response with null body status cannot have body"
  else .ok ({ response with body := .buffer body, bodyUsed := false }, body)

def addAllOperations : List (Request P × Response) → Except JsError (List (Operation P))
  | [] => .ok []
  | (request, response) :: fetched => do
    validateRequest (some request)
    let shared ← sharedResponse response
    let operations ← addAllOperations fetched
    .ok ({ type := .put, request, response := some shared } :: operations)

/-- `addAll`, with the responses that were fetched for those of its requests that were not stored. -/
def addAll (fetched : List (Request P × Response)) (d : Disk) : Except JsError Disk := do
  let operations ← addAllOperations fetched
  if operations.length = 0 then .ok d else batchCacheOperations hash operations d

def cloneAll : List (Entry P) → Except JsError (List Response)
  | [] => .ok []
  | e :: storage => do
    let response ← e.response.clone P
    let rest ← cloneAll storage
    .ok (response :: rest)

def matchAll (request : Option (Request P)) (options : Option CacheQueryOptions) (d : Disk) : Except JsError (List Response) := do
  validateRequest request
  let list ← readCacheFullStorage P d
  match request with
  | none => cloneAll list
  | some r => do
    let found ← queryCache r options list
    .ok (found.map Prod.snd)

/-- `Cache.match` -/
def matchFirst (request : Option (Request P)) (options : Option CacheQueryOptions) (d : Disk) : Except JsError (Option Response) := do
  let responses ← matchAll request options d
  .ok responses.head?

variable (P) in
def listCacheKeys : List CachedEntry → Except JsError (List (Request P))
  | [] => .ok []
  | item :: items => do
    let request ← Request.new P item.url item.reqMethod item.reqHeaders
    let rest ← listCacheKeys items
    .ok (request :: rest)

def keys (request : Option (Request P)) (options : Option CacheQueryOptions) (d : Disk) : Except JsError (List (Request P)) :=
  match request with
  | none => listCacheKeys P d.items
  | some r => do
    let list ← readCacheFullStorage P d
    let found ← queryCache r options list
    .ok (found.map Prod.fst)

/-! ## What the reader needs -/

/-- The status is stored as an integer; with a body it must not be a null body status. -/
def StatusOk (n : Int) : Prop := 200 ≤ n ∧ n ≤ 299 ∧ n ≠ 204 ∧ n ≠ 205

instance (n : Int) : Decidable (StatusOk n) := inferInstanceAs (Decidable (_ ∧ _ ∧ _ ∧ _))

structure ItemOk (P : Platform) (d : Disk) (item : CachedEntry) : Prop where
  url : ∃ u, item.url = P.url.href u
  method : item.reqMethod = get
  headers : HeadersOk item.reqHeaders
  object : ∃ page, d.objects item.cacheObjectFilename = some page ∧ HeadersOk page.response.headers ∧
    StatusOk page.response.status ∧ varyLegal page.response.headers = true

def Sound (P : Platform) (d : Disk) : Prop := ∀ item ∈ d.items, ItemOk P d item

/-- An entry that can be written and read again. -/
structure EntryOk (e : Entry P) : Prop where
  method : e.request.method = get
  status : StatusOk e.response.status.toInt32
  vary : varyLegal e.response.headers.data = true

structure EntryRead (e : Entry P) : Prop where
  ok : EntryOk e
  clone : ∃ p, e.response.clone P = .ok p

/-- Whether an entry is matched; one that throws is not. -/
def finds (q : Request P) (o : Option CacheQueryOptions) (e : Entry P) : Bool := (matchEntry q o e).toOption.getD false

variable {tuples : HeaderList} {h : Headers}

theorem fieldValues_rebuilt (ht : HeadersOk tuples) (hh : Headers.ofTuples tuples = .ok h) :
    fieldValues (defaultHeaders P h).data vary = fieldValues tuples vary := by
  have hget : dataGet (defaultHeaders P h).data vary = (dataGet tuples vary).map trimmed := by
    rw [defaultHeaders_get P h (by decide), get_ofTuples ht (by decide) hh]
  unfold fieldValues
  rw [hget]
  cases dataGet tuples vary with
  | none => rfl
  | some v => exact fields_trim (by decide) v

variable (hU : P.url.Reparses)

theorem buildResponse (hh : Headers.ofTuples tuples = .ok h) {n : Int} (hn : StatusOk n)
    (url : Text) (body : BodySource) :
    Response.new P body { status := some (.ofInt n), headers := tuples, extra := { url } } =
      .ok { url, status := .ofInt n, headers := defaultHeaders P h, type := getDefaultResponseType P, body } := by
  obtain ⟨h1, h2, h3, h4⟩ := hn
  apply Response.new_plain P body url hh
  · simp [JsNumber.ofInt_ltInt, h1]
  · rw [JsNumber.ofInt_gtInt]
    exact decide_eq_false (by omega)
  · have hb : nullBodyStatus.any (JsNumber.ofInt n).eqInt = false := by
      simp only [nullBodyStatus, any_cons, any_nil, JsNumber.ofInt_eqInt, Bool.or_false, Bool.or_eq_false_iff, beq_eq_false_iff_ne]
      refine ⟨?_, h3, h4, ?_⟩ <;> omega
    rw [hb, Bool.and_false]

include hU

variable {d : Disk}

theorem readItem_ok {item : CachedEntry} (h : ItemOk P d item) : ∃ e, readItem P d item = .ok (some e) ∧ EntryRead e := by
  obtain ⟨u, hu⟩ := h.url
  obtain ⟨page, hp, hh, hn, hv⟩ := h.object
  obtain ⟨rh, -, hreq⟩ := Request.rebuild (P := P) hU u h.headers
  obtain ⟨ph, hph⟩ := ofTuples_isOk hh
  have hne : ¬ (page.response.url = [] ∧ page.response.status = 0) := by
    rintro ⟨-, h0⟩
    have := hn.1
    omega
  refine ⟨{ request := { url := u, method := get, headers := rh }
            response := { url := page.response.url, status := .ofInt page.response.status, headers := defaultHeaders P ph,
                          type := getDefaultResponseType P, body := .buffer page.response.body }
            store := page.response.body }, ?_, ⟨⟨rfl, ?_, ?_⟩, ?_⟩⟩
  · simp only [readItem, hu, h.method, hreq, hp, hne, buildResponse hph hn, bind, Except.bind, if_false]
  · show StatusOk (JsNumber.ofInt page.response.status).toInt32
    rw [JsNumber.toInt32_ofInt hn.1 hn.2.1]
    exact hn
  · show varyLegal (defaultHeaders P ph).data = true
    rw [varyLegal, fieldValues_rebuilt hh hph]
    exact hv
  · obtain ⟨ph', hph'⟩ := ofTuples_isOk (defaultHeaders P ph).ok
    exact ⟨_, buildResponse hph' hn _ _⟩

theorem readItems_ok {items : List CachedEntry} (h : ∀ item ∈ items, ItemOk P d item) :
    ∃ storage, readItems P d items = .ok storage ∧ ∀ e ∈ storage, EntryRead e := by
  induction items with
  | nil => exact ⟨[], rfl, by simp⟩
  | cons item items ih =>
    obtain ⟨e, he, hok⟩ := readItem_ok hU (h item mem_cons_self)
    obtain ⟨storage, hs, hall⟩ := ih fun x hx => h x (mem_cons_of_mem _ hx)
    refine ⟨e :: storage, by simp [readItems, he, hs, bind, Except.bind], ?_⟩
    intro x hx
    rcases mem_cons.mp hx with rfl | hx
    · exact hok
    · exact hall x hx

variable {storage : List (Entry P)}

theorem queryCache_ok (q : Request P) (o : Option CacheQueryOptions) (h : ∀ e ∈ storage, EntryRead e) :
    ∃ l, queryCache q o storage = .ok l := by
  induction storage with
  | nil => exact ⟨[], rfl⟩
  | cons e storage ih =>
    have he := h e mem_cons_self
    obtain ⟨b, hb⟩ := match_total hU q e.request he.ok.vary o
    obtain ⟨p, hp⟩ := he.clone
    obtain ⟨l, hl⟩ := ih fun x hx => h x (mem_cons_of_mem _ hx)
    have hb' : matchEntry q o e = .ok b := hb
    cases b with
    | false => exact ⟨l, by simp [queryCache, hb', hl, bind, Except.bind]⟩
    | true =>
      exact ⟨(e.request, p) :: l, by
        simp [queryCache, hb', Request.clone_get hU he.ok.method, hp, hl, bind, Except.bind]⟩

variable {q : Request P} {o : Option CacheQueryOptions} {e : Entry P}

omit hU in
theorem queryCache_found {l : List (Request P × Response)}
    (h : queryCache q o storage = .ok l) (he : e ∈ storage) (hm : matchEntry q o e = .ok true) : l ≠ [] := by
  induction storage generalizing l with
  | nil => cases he
  | cons x storage ih =>
    obtain ⟨found, hfound, h⟩ := bind_ok.mp h
    cases found with
    | true =>
      obtain ⟨_, -, h⟩ := bind_ok.mp h
      obtain ⟨_, -, h⟩ := bind_ok.mp h
      obtain ⟨_, -, h⟩ := bind_ok.mp h
      rw [← Except.ok.inj h]
      simp
    | false =>
      rcases mem_cons.mp he with rfl | he
      · rw [hm] at hfound
        cases hfound
      · exact ih h he

theorem removeMatched_ok (q : Request P) (o : Option CacheQueryOptions) (h : ∀ e ∈ storage, EntryRead e) :
    ∃ l, removeMatched q o storage = .ok l := by
  induction storage with
  | nil => exact ⟨[], rfl⟩
  | cons e storage ih =>
    obtain ⟨b, hb⟩ := match_total hU q e.request (h e mem_cons_self).ok.vary o
    obtain ⟨l, hl⟩ := ih fun x hx => h x (mem_cons_of_mem _ hx)
    have hb' : matchEntry q o e = .ok b := hb
    exact ⟨if b then l else e :: l, by simp [removeMatched, hb', hl, bind, Except.bind]⟩

omit hU in
theorem cloneAll_ok (h : ∀ e ∈ storage, EntryRead e) : ∃ l, cloneAll storage = .ok l := by
  induction storage with
  | nil => exact ⟨[], rfl⟩
  | cons e storage ih =>
    obtain ⟨p, hp⟩ := (h e mem_cons_self).clone
    obtain ⟨l, hl⟩ := ih fun x hx => h x (mem_cons_of_mem _ hx)
    exact ⟨p :: l, by simp [cloneAll, hp, hl, bind, Except.bind]⟩

/-! ## Writing -/

omit hU in
theorem writeObjects_cases (storage : List (Entry P)) (objects : Text → Option CacheObjectPage) (k : Text) :
    (∃ e ∈ storage, e.path hash = k ∧ writeObjects hash storage objects k = some e.objectPage) ∨
      ((∀ e ∈ storage, e.path hash ≠ k) ∧ writeObjects hash storage objects k = objects k) := by
  induction storage generalizing objects with
  | nil => exact Or.inr ⟨by simp, rfl⟩
  | cons x storage ih =>
    rcases ih (Function.update objects (x.path hash) (some x.objectPage)) with ⟨e, he, hk, hw⟩ | ⟨hno, hw⟩
    · exact Or.inl ⟨e, mem_cons_of_mem _ he, hk, hw⟩
    · by_cases hx : x.path hash = k
      · subst hx
        exact Or.inl ⟨x, mem_cons_self, rfl, by rw [writeObjects, hw, Function.update_self]⟩
      · refine Or.inr ⟨fun e he => ?_, by rw [writeObjects, hw, Function.update_of_ne (Ne.symm hx)]⟩
        rcases mem_cons.mp he with rfl | he
        · exact hx
        · exact hno e he

omit hU in
theorem writeObjects_snoc (storage : List (Entry P)) (e : Entry P) (objects : Text → Option CacheObjectPage) :
    writeObjects hash (storage ++ [e]) objects (e.path hash) = some e.objectPage := by
  induction storage generalizing objects with
  | nil => simp [writeObjects]
  | cons x storage ih => exact ih _

omit hU in
theorem writeObjects_own (h : (storage.map (Entry.path hash)).Nodup) (objects : Text → Option CacheObjectPage)
    (he : e ∈ storage) : writeObjects hash storage objects (e.path hash) = some e.objectPage := by
  rcases writeObjects_cases hash storage objects (e.path hash) with ⟨e', he', hpath, hw⟩ | ⟨hno, -⟩
  · rw [hw, inj_on_of_nodup_map h he' he hpath]
  · exact absurd rfl (hno e he)

omit hU in
theorem sound_write (h : ∀ e ∈ storage, EntryOk e) (d : Disk) : Sound P (writeStorage hash storage d) := by
  intro item hi
  obtain ⟨e, he, rfl⟩ := mem_map.mp hi
  refine ⟨⟨e.request.url, rfl⟩, (h e he).method, e.request.headers.ok, ?_⟩
  rcases writeObjects_cases hash storage d.objects (e.path hash) with ⟨e', he', -, hw⟩ | ⟨hno, -⟩
  · exact ⟨e'.objectPage, hw, e'.response.headers.ok, (h e' he').status, (h e' he').vary⟩
  · exact absurd rfl (hno e he)

omit hU in
theorem atomicSteps_delete (r : Request P) (o : Option CacheQueryOptions) (storage : List (Entry P)) :
    batchCacheOperationsAtomicSteps [{ type := .delete, request := r, options := o }] storage [] = removeMatched r o storage := by
  simp only [batchCacheOperationsAtomicSteps, atomicStep, queryCache, bind, Except.bind]
  cases removeMatched r o storage <;> simp

omit hU in
theorem removeMatched_filter {l : List (Entry P)}
    (h : removeMatched q o storage = .ok l) : l = storage.filter (!finds q o ·) ∧ ∀ e ∈ storage, matchEntry q o e = .ok (finds q o e) := by
  induction storage generalizing l with
  | nil => exact ⟨(Except.ok.inj h).symm, by simp⟩
  | cons e storage ih =>
    obtain ⟨rest, hrest, h⟩ := bind_ok.mp h
    obtain ⟨b, hb, h⟩ := bind_ok.mp h
    obtain ⟨rfl, hall⟩ := ih hrest
    have hfinds : finds q o e = b := by rw [finds, hb]; rfl
    refine ⟨?_, ?_⟩
    · rw [← Except.ok.inj h, filter_cons, hfinds]
      cases b <;> rfl
    · intro x hx
      rcases mem_cons.mp hx with rfl | hx
      · rw [hfinds, hb]
      · exact hall x hx

variable {op : Operation P} {added : List (Entry P)} {next : List (Entry P) × List (Entry P)}

omit hU in
theorem atomicStep_ok (h : atomicStep op storage added = .ok next) :
    ∃ kept, removeMatched op.request op.options storage = .ok kept ∧
      (op.type = .delete ∧ next.1 = kept ∨ op.type = .put ∧ ∃ p store, op.response = some (p, store) ∧ op.request.method = get ∧
        op.options = none ∧ next.1 = kept ++ [{ request := op.request, response := p, store := store }]) := by
  simp only [atomicStep] at h
  split at h
  · cases h
  obtain ⟨_, _, h⟩ := bind_ok.mp h
  split at h
  · cases h
  split at h
  · next htype =>
    obtain ⟨kept, hkept, h⟩ := bind_ok.mp h
    rw [← Except.ok.inj h]
    exact ⟨kept, hkept, Or.inl ⟨htype, rfl⟩⟩
  · next htype =>
    split at h
    · cases h
    · rename_i p store hresponse
      obtain ⟨url, -, h⟩ := bind_ok.mp h
      split at h
      · cases h
      split at h
      · cases h
      rename_i hget
      split at h
      · cases h
      rename_i hoptions
      obtain ⟨kept, hkept, h⟩ := bind_ok.mp h
      rw [← Except.ok.inj h]
      exact ⟨kept, hkept, Or.inr ⟨htype, p, store, hresponse, not_not.mp hget, by simpa using hoptions, rfl⟩⟩

omit hU in
/-- After one operation: what was there, and the entry of a `put` for a `GET`. -/
theorem atomicStep_mem (h : atomicStep op storage added = .ok next) (he : e ∈ next.1) :
    e ∈ storage ∨ (e.request.method = get ∧ op.response = some (e.response, e.store)) := by
  obtain ⟨kept, hkept, hnext⟩ := atomicStep_ok h
  have hsub : ∀ x ∈ kept, x ∈ storage := by
    rw [(removeMatched_filter hkept).1]
    exact fun x hx => mem_of_mem_filter hx
  rcases hnext with ⟨-, hn⟩ | ⟨-, p, store, hr, hget, -, hn⟩
  · exact Or.inl (hsub e (hn ▸ he))
  · rw [hn] at he
    rcases mem_append.mp he with he | he
    · exact Or.inl (hsub e he)
    · rw [mem_singleton.mp he]
      exact Or.inr ⟨hget, hr⟩

variable {storage' : List (Entry P)}

omit hU in
theorem atomicSteps_mem {operations : List (Operation P)}
    (h : batchCacheOperationsAtomicSteps operations storage added = .ok storage') (he : e ∈ storage') :
    e ∈ storage ∨ (e.request.method = get ∧ ∃ op ∈ operations, op.response = some (e.response, e.store)) := by
  induction operations generalizing storage added with
  | nil => rw [← Except.ok.inj h] at he; exact Or.inl he
  | cons op operations ih =>
    obtain ⟨next, hnext, h⟩ := bind_ok.mp h
    rcases ih h with hm | ⟨hg, op', hop', hr⟩
    · rcases atomicStep_mem hnext hm with hm | ⟨hg, hr⟩
      · exact Or.inl hm
      · exact Or.inr ⟨hg, op, mem_cons_self, hr⟩
    · exact Or.inr ⟨hg, op', mem_cons_of_mem _ hop', hr⟩

structure PutRequest (r : Request P) : Prop where
  protocol : P.url.protocol r.url ∈ allowedProtocols
  method : r.method = get

variable {r : Request P}

theorem atomicSteps_put (hr : PutRequest r) (p : Response) (store : Bytes) (storage : List (Entry P)) :
    batchCacheOperationsAtomicSteps [{ type := .put, request := r, response := some (p, store) }] storage [] =
      (removeMatched r none storage).map (· ++ [{ request := r, response := p, store := store }]) := by
  simp only [batchCacheOperationsAtomicSteps, atomicStep, queryCache, newUrl_ok hU, bind, Except.bind, hr.protocol, hr.method]
  cases removeMatched r none storage <;> simp [Except.map]

variable {p : Response} {store : Bytes}

theorem atomicSteps_put_inv
    (h : batchCacheOperationsAtomicSteps [{ type := .put, request := r, response := some (p, store) }] storage [] = .ok storage') :
    PutRequest r := by
  simp only [batchCacheOperationsAtomicSteps, atomicStep, queryCache, newUrl_ok hU, bind, Except.bind] at h
  refine ⟨?_, ?_⟩
  · by_contra hn
    simp [hn] at h
  · by_contra hn
    by_cases hp : P.url.protocol r.url ∈ allowedProtocols
    · simp [hp, hn] at h; cases h
    · simp [hp] at h

/-! ## Accepted puts -/

/-- The response of a put that is accepted, and its clone. -/
structure PutResponse (P : Platform) (p : Response) (cloned : Response) : Prop where
  low : p.status.ltInt 200 = false
  high : p.status.gtInt 299 = false
  noStar : star ∉ fieldValues p.headers.data vary
  fresh : p.bodyUsed = false
  clone : ∃ h, Headers.ofTuples p.headers.data = .ok h ∧
    cloned = { url := p.url, status := p.status, headers := defaultHeaders P h, type := getDefaultResponseType P, body := p.body }

omit hU in
theorem clone_inv {cloned : Response} (h : p.clone P = .ok cloned) (hlow : p.status.ltInt 200 = false)
    (hhigh : p.status.gtInt 299 = false) (hstar : star ∉ fieldValues p.headers.data vary) : PutResponse P p cloned := by
  have hfresh : p.bodyUsed = false := by
    cases hu : p.bodyUsed with
    | false => rfl
    | true => simp [Response.clone, hu, typeError] at h
  rw [Response.clone, hfresh, if_neg Bool.false_ne_true] at h
  exact ⟨hlow, hhigh, hstar, hfresh, Response.new_inv P h⟩

omit hU in
theorem validateResponse_ok {u : Unit} (h : validateResponse p = .ok u) :
    p.status.ltInt 200 = false ∧ p.status.gtInt 299 = false ∧ star ∉ fieldValues p.headers.data vary := by
  simp only [validateResponse] at h
  split at h
  · cases h
  rename_i hne
  split at h
  · cases h
  rename_i hstar
  have hok : isOkStatus p.status = true := by
    cases hi : isOkStatus p.status with
    | true => rfl
    | false => exact absurd (Or.inr (Or.inl hi)) hne
  obtain ⟨hlow, hhigh⟩ : p.status.ltInt 200 = false ∧ p.status.gtInt 299 = false := by simpa [isOkStatus] using hok
  exact ⟨hlow, hhigh, hstar⟩

omit hU in
theorem preparePut_ok (h : preparePut r p = .ok op) :
    ∃ cloned store, PutResponse P p cloned ∧ p.body.arrayBuffer = .ok store ∧
      op = { type := .put, request := r, response := some (cloned, store) } := by
  obtain ⟨-, -, h⟩ := bind_ok.mp h
  obtain ⟨_, hv, h⟩ := bind_ok.mp h
  obtain ⟨hlow, hhigh, hstar⟩ := validateResponse_ok hv
  split at h
  · cases h
  · obtain ⟨cloned, hc, h⟩ := bind_ok.mp h
    obtain ⟨-, -, h⟩ := bind_ok.mp h
    obtain ⟨store, hst, h⟩ := bind_ok.mp h
    have hp := clone_inv hc hlow hhigh hstar
    obtain ⟨hd, hhd, hcl⟩ := hp.clone
    refine ⟨cloned, store, hp, ?_, (Except.ok.inj h).symm⟩
    rw [hcl] at hst
    exact hst

variable {d' : Disk}

theorem batch_put
    (h : batchCacheOperations hash [{ type := .put, request := r, response := some (p, store) }] d = .ok d') :
    ∃ storage kept, PutRequest r ∧ readCacheFullStorage P d = .ok storage ∧ removeMatched r none storage = .ok kept ∧
      d' = writeStorage hash (kept ++ [{ request := r, response := p, store := store }]) d := by
  obtain ⟨storage, hread, h⟩ := bind_ok.mp h
  obtain ⟨storage', hat, h⟩ := bind_ok.mp h
  have hr := atomicSteps_put_inv hU hat
  rw [atomicSteps_put hU hr] at hat
  cases hk : removeMatched r none storage with
  | error e => rw [hk] at hat; cases hat
  | ok kept =>
    rw [hk] at hat
    cases hat
    exact ⟨storage, kept, hr, hread, hk, (Except.ok.inj h).symm⟩

theorem validateRequest_ok (hr : PutRequest r) : validateRequest (some r) = .ok () := by
  simp [validateRequest, newUrl_ok hU, hr.protocol, bind, Except.bind]

theorem put_ok (h : put hash r p d = .ok d') :
    ∃ cloned store storage kept, PutRequest r ∧ PutResponse P p cloned ∧ p.body.arrayBuffer = .ok store ∧
      readCacheFullStorage P d = .ok storage ∧ removeMatched r none storage = .ok kept ∧
      d' = writeStorage hash (kept ++ [{ request := r, response := cloned, store := store }]) d := by
  obtain ⟨op, hop, h⟩ := bind_ok.mp h
  obtain ⟨cloned, store, hp, hst, rfl⟩ := preparePut_ok hop
  obtain ⟨storage, kept, hr, hread, hk, hd⟩ := batch_put hash hU h
  exact ⟨cloned, store, storage, kept, hr, hp, hst, hread, hk, hd⟩

end Aworker.Cache
