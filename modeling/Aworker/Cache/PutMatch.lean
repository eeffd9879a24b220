/-
  Aworker.Cache.PutMatch — what is found after a put (lib/cache.js: `Cache.put`, `matchAll`,
  `match`).

  A put reads all entries, drops those its request matches, appends its own and writes
  everything back; the next call builds all of it again from the files. Header values that
  are trimmed come back as they were, and so does an integer status. On a worker with a
  location every response that is built loses `set-cookie` and `set-cookie2`.

  The file of an entry is named by a hash of its request. Two entries never have the same
  request; that their names differ then is a property of the hash (`NoCollision`).

  - `requestKey_inj`: the text that is hashed determines the request.
  Also `read_written`, `put_then_match`, `put_changes_response`.
-/

import Mathlib
import Aworker.Cache.Poison

namespace Aworker.Cache

open Aworker.Lib Aworker.Fetch
open List hiding get

variable {P : Platform} (hash : Text → Text)

/-! ## File names -/

/-- URLs are serialized without line breaks. -/
def NoNewline (U : UrlApi) : Prop := ∀ u, '\n' ∉ U.href u

def requestKey (r : Request P) : Text := objectKey r.method (P.url.href r.url) r.headers.data

/-- The hash tells the requests of `R` apart. -/
def NoCollision (R : Set (Request P)) : Prop := ∀ r ∈ R, ∀ r' ∈ R, hash (requestKey r) = hash (requestKey r') → requestKey r = requestKey r'

theorem name_noColon {name : Text} (h : legalName name = true) : ':' ∉ name := by
  intro hm
  have := all_eq_true.mp (Bool.and_eq_true_iff.mp h).1 _ hm
  exact absurd this (by decide)

theorem value_noNewline {value : Text} (h : legalValue value = true) : '\n' ∉ value := by
  intro hm
  exact absurd (all_eq_true.mp h _ hm) (by decide)

theorem headerLines_inj {hs hs' : HeaderList} (hok : HeadersOk hs) (hok' : HeadersOk hs')
    (h : (hs.flatMap fun h => h.1 ++ ": ".toList ++ h.2 ++ "\n".toList) = hs'.flatMap fun h => h.1 ++ ": ".toList ++ h.2 ++ "\n".toList) :
    hs = hs' := by
  induction hs generalizing hs' with
  | nil =>
    cases hs' with
    | nil => rfl
    | cons x hs' => simp at h
  | cons a hs ih =>
    cases hs' with
    | nil => simp at h
    | cons b hs' =>
      have hsep : ": ".toList = [':', ' '] := rfl
      have hend : "\n".toList = ['\n'] := rfl
      simp only [flatMap_cons, hsep, hend, append_assoc, cons_append, nil_append] at h
      obtain ⟨hname, h⟩ := append_sep_inj (name_noColon (hok.name a mem_cons_self).1)
        (name_noColon (hok'.name b mem_cons_self).1) h
      obtain ⟨hvalue, h⟩ := append_sep_inj (value_noNewline (hok.value a mem_cons_self))
        (value_noNewline (hok'.value b mem_cons_self)) (List.cons.inj h).2
      have hrest : hs = hs' := by
        apply ih (hok.sublist (sublist_cons_self a hs)) (hok'.sublist (sublist_cons_self b hs'))
        simpa only [hsep, hend, append_assoc, cons_append, nil_append] using h
      rw [hrest, Prod.ext hname hvalue]

variable {r : Request P}

section

variable (hU : P.url.Reparses)
include hU

theorem href_inj {u v : P.url.Url} (h : P.url.href u = P.url.href v) : u = v := by
  have hu := hU u none
  rw [h, hU v none] at hu
  exact (Option.some.inj hu).symm

theorem requestKey_inj (hN : NoNewline P.url) {r' : Request P} (hm : r.method = get) (hm' : r'.method = get)
    (h : requestKey r = requestKey r') : r = r' := by
  have hkey : ∀ x : Request P, requestKey x = (x.method ++ " ".toList) ++ (P.url.href x.url ++
      '\n' :: x.headers.data.flatMap fun h => h.1 ++ ": ".toList ++ h.2 ++ "\n".toList) := by
    intro x
    rw [requestKey, objectKey, append_assoc, append_assoc]
    rfl
  rw [hkey, hkey, hm, hm', append_cancel_left_eq] at h
  obtain ⟨hurl, hlines⟩ := append_sep_inj (hN r.url) (hN r'.url) h
  have hheaders := Headers.ext (headerLines_inj r.headers.ok r'.headers.ok hlines)
  cases r; cases r'
  simp_all only
  exact congrArg (fun u => Request.mk u get _) (href_inj hU hurl)

end

/-! ## Entries that come back as they were -/

/-- No value starts or ends with white space. -/
def TrimmedHeaders (data : HeaderList) : Prop := ∀ x ∈ data, trimmed x.2 = x.2

/-- Nor is a header one that a response may lose. -/
def PlainHeaders (data : HeaderList) : Prop := TrimmedHeaders data ∧ ∀ x ∈ data, x.1 ∉ forbiddenResponseHeaders

def Entry.stored (e : Entry P) : Entry P where
  request := e.request
  response :=
    { url := e.response.url, status := .ofInt e.response.status.toInt32, headers := e.response.headers,
      type := getDefaultResponseType P, body := .buffer e.store }
  store := e.store

structure Writable (e : Entry P) : Prop where
  method : e.request.method = get
  request : TrimmedHeaders e.request.headers.data
  response : PlainHeaders e.response.headers.data
  low : e.response.status.ltInt 200 = false
  high : e.response.status.gtInt 299 = false
  noStar : star ∉ fieldValues e.response.headers.data vary

/-- Entries that can be written, all of different requests, which are among `R`. -/
structure Tidy (R : Set (Request P)) (storage : List (Entry P)) : Prop where
  writable : ∀ e ∈ storage, Writable e
  known : ∀ e ∈ storage, e.request ∈ R
  distinct : (storage.map Entry.request).Nodup

/-- The files hold the entries of `w`, each under its own name. -/
structure Written (R : Set (Request P)) (w : List (Entry P)) (d : Disk) : Prop where
  tidy : Tidy R w
  items : d.items = w.map (Entry.item hash)
  objects : ∀ e ∈ w, d.objects (e.path hash) = some e.objectPage

/-- An operation whose response, if it has one, can be written with its request. -/
def PlainOp (R : Set (Request P)) (op : Operation P) : Prop :=
  ∀ p store, op.response = some (p, store) → op.request ∈ R ∧
    (op.request.method = get → Writable { request := op.request, response := p, store := store })

/-- A call all of whose headers come back as they are, for requests of `R`. -/
def PlainCall (R : Set (Request P)) : CacheOp P → Prop
  | .put r p => r ∈ R ∧ TrimmedHeaders r.headers.data ∧ PlainHeaders p.headers.data
  | .addAll fetched => ∀ x ∈ fetched, x.1 ∈ R ∧ TrimmedHeaders x.1.headers.data ∧ PlainHeaders x.2.headers.data
  | .delete _ _ => True

/-- The entries a query asks for; without a request all of them. -/
def selects (q : Option (Request P)) (o : Option CacheQueryOptions) (e : Entry P) : Bool :=
  match q with
  | none => true
  | some q => finds q o e

def answers (q : Option (Request P)) (o : Option CacheQueryOptions) (storage : List (Entry P)) : List Response :=
  (storage.filter (selects q o)).map Entry.response

/-- `p'` is `p` with the same url, status, headers and body. -/
structure Returned (p p' : Response) : Prop where
  url : p'.url = p.url
  status : p'.status.Same p.status
  headers : p'.headers = p.headers
  body : ∃ bytes, p.body.arrayBuffer = .ok bytes ∧ p'.body = .buffer bytes

theorem answers_none (o : Option CacheQueryOptions) (storage : List (Entry P)) : answers none o storage = storage.map Entry.response := by
  have hall : storage.filter (selects none o) = storage := filter_eq_self.mpr fun _ _ => rfl
  rw [answers, hall]

theorem answers_snoc (q : Option (Request P)) (o : Option CacheQueryOptions) (storage : List (Entry P)) (e : Entry P) :
    answers q o (storage ++ [e]) = answers q o storage ++ if selects q o e then [e.response] else [] := by
  cases h : selects q o e <;> simp [answers, h]

variable {e : Entry P}

theorem writable_stored (h : Writable e) : Writable e.stored := by
  obtain ⟨-, hlo, hhi⟩ := JsNumber.toInt32_ok h.low h.high
  refine ⟨h.method, h.request, h.response, ?_, ?_, h.noStar⟩
  · simpa [Entry.stored, JsNumber.ofInt_ltInt] using hlo
  · simpa [Entry.stored, JsNumber.ofInt_gtInt] using hhi

theorem stored_stored (h : Writable e) : e.stored.stored = e.stored := by
  obtain ⟨-, hlo, hhi⟩ := JsNumber.toInt32_ok h.low h.high
  simp [Entry.stored, JsNumber.toInt32_ofInt hlo hhi]

theorem rebuilt_headers {h : Headers} (hp : PlainHeaders h.data) : Headers.ofTuples h.data = .ok h ∧ defaultHeaders P h = h :=
  ⟨ofTuples_stable h hp.1, defaultHeaders_none P hp.2⟩

theorem stored_clone (h : Writable e) (hs : StatusOk e.response.status.toInt32) :
    e.stored.response.clone P = .ok e.stored.response := by
  obtain ⟨htuples, hdefault⟩ := rebuilt_headers (P := P) h.response
  have := buildResponse (P := P) htuples hs e.response.url (.buffer e.store)
  rw [hdefault] at this
  exact this

variable {d d' : Disk} {w storage storage' kept : List (Entry P)} {operations : List (Operation P)}
  {p cloned : Response} {q : Request P} {o : Option CacheQueryOptions} {l : List Response}

section

variable (hU : P.url.Reparses)
include hU

theorem readItem_stored (h : Writable e) (hs : StatusOk e.response.status.toInt32)
    (hobj : d.objects (e.path hash) = some e.objectPage) : readItem P d (e.item hash) = .ok (some e.stored) := by
  obtain ⟨htuples, hdefault⟩ := rebuilt_headers (P := P) h.response
  obtain ⟨rh, hrh, hreq⟩ := Request.rebuild (P := P) hU e.request.url e.request.headers.ok
  obtain rfl : rh = e.request.headers := by
    rw [ofTuples_stable e.request.headers h.request] at hrh
    exact (Except.ok.inj hrh).symm
  have hne : ¬ (e.response.url = [] ∧ e.response.status.toInt32 = 0) := by
    rintro ⟨-, h0⟩
    have := hs.1
    omega
  have hrequest : ({ url := e.request.url, method := get, headers := e.request.headers } : Request P) = e.request := by
    rw [← h.method]
  simp only [readItem, Entry.item, h.method, hreq, hobj, Entry.objectPage, hne, if_false, buildResponse htuples hs, hdefault, hrequest,
    bind, Except.bind, Entry.stored]

/-! ## The files hold the entries -/

theorem readItem_statusOk (h : Writable e) (hobj : d.objects (e.path hash) = some e.objectPage)
    {last : Option (Entry P)} (hl : readItem P d (e.item hash) = .ok last) : StatusOk e.response.status.toInt32 := by
  obtain ⟨-, hlo, hhi⟩ := JsNumber.toInt32_ok h.low h.high
  obtain ⟨h4, h5, -⟩ := readItem_written hash hU h.method hlo hhi hobj hl
  exact ⟨hlo, hhi, h4, h5⟩

theorem readItems_statusOk (hw : ∀ e ∈ w, Writable e) (hobj : ∀ e ∈ w, d.objects (e.path hash) = some e.objectPage)
    (h : readItems P d (w.map (Entry.item hash)) = .ok storage) : ∀ e ∈ w, StatusOk e.response.status.toInt32 := by
  induction w generalizing storage with
  | nil => simp
  | cons e w ih =>
    obtain ⟨last, hl, h⟩ := bind_ok.mp h
    obtain ⟨rest, hr, -⟩ := bind_ok.mp h
    intro x hx
    rcases mem_cons.mp hx with rfl | hx
    · exact readItem_statusOk hash hU (hw x mem_cons_self) (hobj x mem_cons_self) hl
    · exact ih (fun y hy => hw y (mem_cons_of_mem _ hy)) (fun y hy => hobj y (mem_cons_of_mem _ hy)) hr x hx

theorem readItems_stored (hw : ∀ e ∈ w, Writable e)
    (hobj : ∀ e ∈ w, d.objects (e.path hash) = some e.objectPage) (hs : ∀ e ∈ w, StatusOk e.response.status.toInt32) :
    readItems P d (w.map (Entry.item hash)) = .ok (w.map Entry.stored) := by
  induction w with
  | nil => rfl
  | cons e w ih =>
    have he := readItem_stored hash hU (hw e mem_cons_self) (hs e mem_cons_self) (hobj e mem_cons_self)
    have hrest := ih (fun y hy => hw y (mem_cons_of_mem _ hy)) (fun y hy => hobj y (mem_cons_of_mem _ hy))
      (fun y hy => hs y (mem_cons_of_mem _ hy))
    simp [readItems, he, hrest, bind, Except.bind]

theorem read_written {R : Set (Request P)} (h : Written hash R w d) (hread : readCacheFullStorage P d = .ok storage) :
    storage = w.map Entry.stored ∧ ∀ e ∈ w, StatusOk e.response.status.toInt32 := by
  rw [readCacheFullStorage, h.items] at hread
  have hs := readItems_statusOk hash hU h.tidy.writable h.objects hread
  rw [readItems_stored hash hU h.tidy.writable h.objects hs] at hread
  exact ⟨(Except.ok.inj hread).symm, hs⟩

variable (hN : NoNewline P.url) {R : Set (Request P)} (hR : NoCollision hash R)

include hN hR in
theorem Tidy.files_nodup (h : Tidy R storage) : (storage.map (Entry.path hash)).Nodup := by
  refine (nodup_map_iff_inj_on (h.distinct.of_map _)).mpr fun e' he' e he hpath => ?_
  have hkey : requestKey e'.request = requestKey e.request :=
    hR _ (h.known e' he') _ (h.known e he) (append_cancel_right hpath)
  have hreq := requestKey_inj hU hN (h.writable e' he').method (h.writable e he).method hkey
  exact inj_on_of_nodup_map h.distinct he' he hreq

include hN hR in
theorem written_write (h : Tidy R storage) (d : Disk) : Written hash R storage (writeStorage hash storage d) := by
  refine ⟨h, rfl, fun e he => ?_⟩
  exact writeObjects_own hash (h.files_nodup hash hU hN hR) d.objects he

/-! ## What an operation keeps -/

omit hU in
theorem tidy_stored (h : Tidy R w) : Tidy R (w.map Entry.stored) := by
  refine ⟨?_, ?_, ?_⟩
  · intro e he
    obtain ⟨x, hx, rfl⟩ := mem_map.mp he
    exact writable_stored (h.writable x hx)
  · intro e he
    obtain ⟨x, hx, rfl⟩ := mem_map.mp he
    exact h.known x hx
  · rw [map_map]
    exact h.distinct

omit hU in
theorem tidy_sublist (h : Tidy R storage) (hs : storage'.Sublist storage) : Tidy R storage' :=
  ⟨fun e he => h.writable e (hs.subset he), fun e he => h.known e (hs.subset he), h.distinct.sublist (hs.map Entry.request)⟩

theorem finds_itself (h : Writable e) (htotal : matchEntry e.request none e = .ok (finds e.request none e)) :
    finds e.request none e = true := by
  have hitself := match_itself hU h.method h.noStar
  cases hv : varyLegal e.response.headers.data with
  | true =>
    rw [hv, if_pos rfl] at hitself
    have hm : matchEntry e.request none e = .ok true := hitself
    rw [hm] at htotal
    exact (Except.ok.inj htotal).symm
  | false =>
    rw [hv, if_neg Bool.false_ne_true] at hitself
    obtain ⟨err, herr⟩ := hitself
    have hm : matchEntry e.request none e = .error err := herr
    rw [hm] at htotal
    cases htotal

theorem tidy_put (h : Tidy R storage) (he : Writable e) (hknown : e.request ∈ R)
    (hk : removeMatched e.request none storage = .ok kept) : Tidy R (kept ++ [e]) := by
  obtain ⟨rfl, htotal⟩ := removeMatched_filter hk
  have hkept := tidy_sublist h (filter_sublist (p := fun x => !finds e.request none x))
  refine ⟨?_, ?_, ?_⟩
  · exact forall_mem_append.mpr ⟨hkept.writable, forall_mem_singleton.mpr he⟩
  · exact forall_mem_append.mpr ⟨hkept.known, forall_mem_singleton.mpr hknown⟩
  · rw [map_append, map_singleton]
    refine List.Nodup.append hkept.distinct (nodup_singleton _) ?_
    rw [disjoint_singleton]
    intro hm
    obtain ⟨x, hx, hreq⟩ := mem_map.mp hm
    obtain ⟨hmem, hnot⟩ := mem_filter.mp hx
    have hx' := finds_itself hU (h.writable x hmem) (by rw [hreq]; exact htotal x hmem)
    rw [hreq] at hx'
    simp [hx'] at hnot

theorem tidy_steps {added : List (Entry P)} (h : Tidy R storage)
    (hops : ∀ op ∈ operations, PlainOp R op) (hs : batchCacheOperationsAtomicSteps operations storage added = .ok storage') :
    Tidy R storage' := by
  induction operations generalizing storage added with
  | nil => rw [← Except.ok.inj hs]; exact h
  | cons op operations ih =>
    obtain ⟨next, hnext, hs⟩ := bind_ok.mp hs
    refine ih ?_ (fun x hx => hops x (mem_cons_of_mem _ hx)) hs
    obtain ⟨kept, hk, hcase⟩ := atomicStep_ok hnext
    rcases hcase with ⟨-, hn⟩ | ⟨-, p, store, hr, hget, hopt, hn⟩
    · rw [hn, (removeMatched_filter hk).1]
      exact tidy_sublist h filter_sublist
    · obtain ⟨hknown, hw⟩ := hops op mem_cons_self p store hr
      rw [hn]
      rw [hopt] at hk
      exact tidy_put hU h (hw hget) hknown hk

include hN hR in
theorem written_batch (hops : ∀ op ∈ operations, PlainOp R op)
    (h : Written hash R w d) (hd : batchCacheOperations hash operations d = .ok d') : ∃ w', Written hash R w' d' := by
  obtain ⟨storage, hread, hd⟩ := bind_ok.mp hd
  obtain ⟨storage', hat, hwrite⟩ := bind_ok.mp hd
  obtain ⟨rfl, -⟩ := read_written hash hU h hread
  rw [← Except.ok.inj hwrite]
  exact ⟨storage', written_write hash hU hN hR (tidy_steps hU (tidy_stored h.tidy) hops hat) d⟩

omit hU in
theorem clone_plain (h : PutResponse P p cloned) (hp : PlainHeaders p.headers.data) :
    cloned = { url := p.url, status := p.status, headers := p.headers, type := getDefaultResponseType P, body := p.body } := by
  obtain ⟨hd, hhd, hcl⟩ := h.clone
  obtain ⟨htuples, hdefault⟩ := rebuilt_headers (P := P) hp
  rw [htuples] at hhd
  obtain rfl := Except.ok.inj hhd
  rw [hcl, hdefault]

omit hU in
theorem put_writable (hget : r.method = get) (hr : TrimmedHeaders r.headers.data)
    (hp : PlainHeaders p.headers.data) (h : PutResponse P p cloned) (store : Bytes) :
    Writable ({ request := r, response := cloned, store := store } : Entry P) := by
  obtain rfl := clone_plain h hp
  exact ⟨hget, hr, hp, h.low, h.high, h.noStar⟩

omit hU in
theorem addAll_plain {fetched : List (Request P × Response)}
    (hf : ∀ x ∈ fetched, x.1 ∈ R ∧ TrimmedHeaders x.1.headers.data ∧ PlainHeaders x.2.headers.data)
    (h : addAllOperations fetched = .ok operations) : ∀ op ∈ operations, PlainOp R op := by
  induction fetched generalizing operations with
  | nil => rw [← Except.ok.inj h]; simp
  | cons x fetched ih =>
    obtain ⟨_, -, h⟩ := bind_ok.mp h
    obtain ⟨shared, hshared, h⟩ := bind_ok.mp h
    obtain ⟨rest, hrest, h⟩ := bind_ok.mp h
    obtain ⟨_, hv, hshared⟩ := bind_ok.mp hshared
    obtain ⟨body, -, hshared⟩ := bind_ok.mp hshared
    split at hshared
    · cases hshared
    rw [← Except.ok.inj h]
    intro op hop
    rcases mem_cons.mp hop with rfl | hop
    · obtain ⟨hknown, hr, hp⟩ := hf x mem_cons_self
      obtain ⟨hlow, hhigh, hstar⟩ := validateResponse_ok hv
      intro p store hresp
      rw [← Except.ok.inj hshared] at hresp
      cases hresp
      exact ⟨hknown, fun hget => ⟨hget, hr, hp, hlow, hhigh, hstar⟩⟩
    · exact ih (fun y hy => hf y (mem_cons_of_mem _ hy)) hrest op hop

include hN hR in
theorem written_step (d : Disk) (e : CacheOp P) (d' : Disk) (h : ∃ w, Written hash R w d) (hq : PlainCall R e)
    (hd : cacheStep hash d e = some d') : ∃ w, Written hash R w d' := by
  obtain ⟨w, hw⟩ := h
  cases e with
  | put r p =>
    obtain ⟨op, hop, hd⟩ := bind_ok.mp (toOption_some hd)
    obtain ⟨cloned, store, hp, -, rfl⟩ := preparePut_ok hop
    refine written_batch hash hU hN hR (fun op hop => ?_) hw hd
    rw [mem_singleton.mp hop]
    intro p' store' hresp
    cases hresp
    exact ⟨hq.1, fun hget => put_writable hget hq.2.1 hq.2.2 hp store⟩
  | addAll fetched =>
    obtain ⟨operations, hops, hd⟩ := bind_ok.mp (toOption_some hd)
    split at hd
    · rw [← Except.ok.inj hd]; exact ⟨w, hw⟩
    · exact written_batch hash hU hN hR (addAll_plain hq hops) hw hd
  | delete r o =>
    obtain ⟨_, -, hd⟩ := bind_ok.mp (toOption_some hd)
    refine written_batch hash hU hN hR (fun op hop => ?_) hw hd
    rw [mem_singleton.mp hop]
    nofun

/-! ## Queries -/

omit hU in
theorem queryCache_total {l : List (Request P × Response)}
    (h : queryCache q o storage = .ok l) : ∀ e ∈ storage, matchEntry q o e = .ok (finds q o e) := by
  induction storage generalizing l with
  | nil => simp
  | cons x storage ih =>
    obtain ⟨found, hfound, h⟩ := bind_ok.mp h
    have hx : matchEntry q o x = .ok (finds q o x) := by rw [finds, hfound]; rfl
    have hrest : ∃ rest, queryCache q o storage = .ok rest := by
      cases found with
      | false => exact ⟨l, h⟩
      | true =>
        obtain ⟨_, -, h⟩ := bind_ok.mp h
        obtain ⟨_, -, h⟩ := bind_ok.mp h
        obtain ⟨rest, hrest, -⟩ := bind_ok.mp h
        exact ⟨rest, hrest⟩
    obtain ⟨rest, hrest⟩ := hrest
    intro e he
    rcases mem_cons.mp he with rfl | he
    · exact hx
    · exact ih hrest e he

theorem queryCache_stored (hw : ∀ e ∈ w, Writable e)
    (hs : ∀ e ∈ w, StatusOk e.response.status.toInt32) (hm : ∀ e ∈ w, matchEntry q o e.stored = .ok (finds q o e.stored)) :
    queryCache q o (w.map Entry.stored) =
      .ok (((w.map Entry.stored).filter (finds q o)).map fun e => (e.request, e.response)) := by
  induction w with
  | nil => rfl
  | cons e w ih =>
    have hrest := ih (fun y hy => hw y (mem_cons_of_mem _ hy)) (fun y hy => hs y (mem_cons_of_mem _ hy))
      (fun y hy => hm y (mem_cons_of_mem _ hy))
    have he := hw e mem_cons_self
    have hresponse := stored_clone he (hs e mem_cons_self)
    have hrequest : e.stored.request.clone = .ok e.stored.request := Request.clone_get hU he.method
    cases hf : finds q o e.stored with
    | false => simp [queryCache, hm e mem_cons_self, hf, hrest, bind, Except.bind]
    | true => simp [queryCache, hm e mem_cons_self, hf, hrest, hrequest, hresponse, bind, Except.bind]

omit hU in
theorem cloneAll_stored (hw : ∀ e ∈ w, Writable e) (hs : ∀ e ∈ w, StatusOk e.response.status.toInt32) :
    cloneAll (w.map Entry.stored) = .ok ((w.map Entry.stored).map Entry.response) := by
  induction w with
  | nil => rfl
  | cons e w ih =>
    have hrest := ih (fun y hy => hw y (mem_cons_of_mem _ hy)) (fun y hy => hs y (mem_cons_of_mem _ hy))
    have hresponse := stored_clone (hw e mem_cons_self) (hs e mem_cons_self)
    simp [cloneAll, hresponse, hrest, bind, Except.bind]

theorem matchAll_stored {q : Option (Request P)} (hq : validateRequest q = .ok ())
    (hw : ∀ e ∈ w, Writable e) (hs : ∀ e ∈ w, StatusOk e.response.status.toInt32)
    (hread : readCacheFullStorage P d = .ok (w.map Entry.stored))
    (hm : ∀ r, q = some r → ∀ e ∈ w, matchEntry r o e.stored = .ok (finds r o e.stored)) :
    matchAll q o d = .ok (answers q o (w.map Entry.stored)) := by
  cases q with
  | none => simp [matchAll, hq, hread, cloneAll_stored hw hs, answers_none, bind, Except.bind]
  | some r =>
    simp only [matchAll, hq, hread, queryCache_stored hU hw hs (hm r rfl), bind, Except.bind, map_map]
    rfl

omit hU in
theorem matchAll_valid {q : Option (Request P)} (h : matchAll q o d = .ok l) : validateRequest q = .ok () := by
  obtain ⟨⟨⟩, hq, -⟩ := bind_ok.mp h
  exact hq

omit hU in
theorem matchAll_total (h : matchAll (some r) o d = .ok l)
    (hread : readCacheFullStorage P d = .ok storage) : ∀ e ∈ storage, matchEntry r o e = .ok (finds r o e) := by
  obtain ⟨_, -, h⟩ := bind_ok.mp h
  obtain ⟨storage', hread', h⟩ := bind_ok.mp h
  obtain ⟨found, hfound, -⟩ := bind_ok.mp h
  rw [hread] at hread'
  cases hread'
  exact queryCache_total hfound

theorem finds_headers {e' : Entry P} (hr : e.request = e'.request)
    (hh : e.response.headers = e'.response.headers) : finds q o e = finds q o e' := by
  have : matchEntry q o e = matchEntry q o e' := by
    rw [matchEntry, matchEntry, match_eq hU, match_eq hU, hr, hh]
  rw [finds, finds, this]

/-! ## The law of a put -/

include hN hR in
theorem put_written (h : Written hash R w d) (hknown : r ∈ R)
    (hr : TrimmedHeaders r.headers.data) (hp : PlainHeaders p.headers.data) (hput : put hash r p d = .ok d') :
    ∃ store kept, PutRequest r ∧ PutResponse P p { p with type := getDefaultResponseType P } ∧ p.body.arrayBuffer = .ok store ∧
      (∀ e ∈ w, StatusOk e.response.status.toInt32) ∧ readCacheFullStorage P d = .ok (w.map Entry.stored) ∧
      removeMatched r none (w.map Entry.stored) = .ok kept ∧
      Written hash R (kept ++ [{ request := r, response := { p with type := getDefaultResponseType P }, store := store }]) d' := by
  obtain ⟨cloned, store, storage, kept, hreq, hresp, hst, hread, hk, rfl⟩ := put_ok hash hU hput
  obtain ⟨rfl, hs⟩ := read_written hash hU h hread
  have hcloned : cloned = { p with type := getDefaultResponseType P } := by
    rw [clone_plain hresp hp, ← hresp.fresh]
  subst hcloned
  have he := put_writable hreq.method hr hp hresp store
  exact ⟨store, kept, hreq, hresp, hst, hs, hread, hk, written_write hash hU hN hR (tidy_put hU (tidy_stored h.tidy) he hknown hk) d⟩

omit hU in
theorem statusOk_integer {x : JsNumber} (hlow : x.ltInt 200 = false) (hhigh : x.gtInt 299 = false) (hint : x.isInteger = true)
    (h204 : x.eqInt 204 = false) (h205 : x.eqInt 205 = false) : StatusOk x.toInt32 := by
  obtain ⟨-, hlo, hhi⟩ := JsNumber.toInt32_ok hlow hhigh
  have hsame := JsNumber.same_toInt32 hlow hhigh hint
  have hne (n : Int) (hn : x.eqInt n = false) : x.toInt32 ≠ n := by
    rintro rfl
    simp only [JsNumber.eqInt, beq_eq_false_iff_ne] at hn
    exact hn (by simpa [JsNumber.Same, JsNumber.ofInt] using hsame.symm)
  exact ⟨hlo, hhi, hne 204 h204, hne 205 h205⟩

theorem read_kept (hw : ∀ e ∈ w, Writable e) (hs : ∀ e ∈ w, StatusOk e.response.status.toInt32)
    (hkept : ∀ x ∈ kept, x ∈ w.map Entry.stored) (hstatus : StatusOk e.response.status.toInt32)
    (h : Written hash R (kept ++ [e]) d) :
    (∀ x ∈ kept ++ [e], StatusOk x.response.status.toInt32) ∧ (kept ++ [e]).map Entry.stored = kept ++ [e.stored] ∧
      readCacheFullStorage P d = .ok ((kept ++ [e]).map Entry.stored) := by
  have hsame : ∀ x ∈ kept, x.stored = x ∧ StatusOk x.response.status.toInt32 := by
    intro x hx
    obtain ⟨y, hy, rfl⟩ := mem_map.mp (hkept x hx)
    refine ⟨stored_stored (hw y hy), ?_⟩
    have := hs y hy
    simpa [Entry.stored, JsNumber.toInt32_ofInt this.1 this.2.1] using this
  have hall : ∀ x ∈ kept ++ [e], StatusOk x.response.status.toInt32 := by
    intro x hx
    rcases mem_append.mp hx with hx | hx
    · exact (hsame x hx).2
    · rw [mem_singleton.mp hx]; exact hstatus
  refine ⟨hall, ?_, ?_⟩
  · rw [map_append, map_singleton, map_congr_left fun x hx => (hsame x hx).1, map_id']
  · rw [readCacheFullStorage, h.items]
    exact readItems_stored hash hU h.tidy.writable h.objects hall

theorem matchAll_kept {q : Option (Request P)} (hq : validateRequest q = .ok ())
    (hw : ∀ x ∈ kept ++ [e], Writable x) (hs : ∀ x ∈ kept ++ [e], StatusOk x.response.status.toInt32)
    (hstored : (kept ++ [e]).map Entry.stored = kept ++ [e.stored])
    (hread : readCacheFullStorage P d = .ok ((kept ++ [e]).map Entry.stored)) (hvary : varyLegal e.response.headers.data = true)
    (hm : ∀ r, q = some r → ∀ x ∈ kept, matchEntry r o x = .ok (finds r o x)) :
    matchAll q o d = .ok (answers q o kept ++ if selects q o e.stored then [e.stored.response] else []) := by
  rw [matchAll_stored hU hq hw hs hread, hstored, answers_snoc]
  intro r hr x hx
  have hx' : x.stored ∈ kept ++ [e.stored] := hstored ▸ mem_map_of_mem hx
  rcases mem_append.mp hx' with hx' | hx'
  · exact hm r hr _ hx'
  · rw [mem_singleton.mp hx']
    obtain ⟨b, hb⟩ := match_total hU r e.stored.request (p := e.stored.response) hvary o
    have hb' : matchEntry r o e.stored = .ok b := hb
    rw [finds, hb']
    rfl

omit hU in
theorem answers_kept (r : Request P) (storage : List (Entry P)) : answers (some r) none (storage.filter (!finds r none ·)) = [] := by
  rw [answers, map_eq_nil_iff, filter_eq_nil_iff]
  intro x hx
  simpa [selects] using (mem_filter.mp hx).2

theorem selects_itself (hm : r.method = get) (hstar : star ∉ fieldValues p.headers.data vary)
    (hvary : varyLegal p.headers.data = true) (store : Bytes) :
    selects (some r) none { request := r, response := p, store := store } = true := by
  have hitself := match_itself hU hm hstar
  rw [hvary, if_pos rfl] at hitself
  have hmatch : matchEntry r none { request := r, response := p, store := store } = .ok true := hitself
  rw [selects, finds, hmatch]
  rfl

include hN hR in
/-- In a state reached by calls on requests whose files do not collide, with headers that come
    back as they are: after a put every query gives what it gave before without the entries
    that the put's request matches, and then the response if the query matches it. -/
theorem put_then_match {es : List (CacheOp P)} {d : Disk} (hrun : run (cacheStep hash) {} es = some d)
    (hes : Along (cacheStep hash) (fun _ e => PlainCall R e) {} es) {r : Request P} {p : Response} (hknown : r ∈ R)
    (hr : TrimmedHeaders r.headers.data) (hp : PlainHeaders p.headers.data) (hint : p.status.isInteger = true)
    (h204 : p.status.eqInt 204 = false) (h205 : p.status.eqInt 205 = false) (hvary : varyLegal p.headers.data = true) {d' : Disk}
    (hput : put hash r p d = .ok d') :
    ∃ storage p', readCacheFullStorage P d = .ok storage ∧ Returned p p' ∧
      (∀ q o l, matchAll q o d = .ok l → l = answers q o storage ∧
        matchAll q o d' = .ok (answers q o (storage.filter (!finds r none ·)) ++
          if selects q o { request := r, response := p, store := [] } then [p'] else [])) ∧
      matchFirst (some r) none d' = .ok (some p') := by
  obtain ⟨w, hw⟩ : ∃ w, Written hash R w d :=
    run_inv (I := fun d => ∃ w, Written hash R w d) (fun d e d' => written_step hash hU hN hR d e d')
      ⟨[], ⟨by simp, by simp, by simp⟩, rfl, by simp⟩ hes hrun
  obtain ⟨store, kept, hreq, hresp, hstore, hs, hread, hk, hw'⟩ := put_written hash hU hN hR hw hknown hr hp hput
  obtain ⟨hkept, htotal⟩ := removeMatched_filter hk
  generalize he : ({ request := r, response := { p with type := getDefaultResponseType P }, store := store } : Entry P) = e at hw'
  have hstatus : StatusOk e.response.status.toInt32 := by
    rw [← he]
    exact statusOk_integer hresp.low hresp.high hint h204 h205
  have hmem : ∀ x ∈ kept, x ∈ w.map Entry.stored := fun x hx => mem_of_mem_filter (hkept ▸ hx)
  obtain ⟨hall, hstored, hread'⟩ := read_kept hash hU hw.tidy.writable hs hmem hstatus hw'
  have hmatch {q : Option (Request P)} {o : Option CacheQueryOptions} (hq : validateRequest q = .ok ())
      (hm : ∀ r, q = some r → ∀ x ∈ kept, matchEntry r o x = .ok (finds r o x)) :=
    matchAll_kept hU hq hw'.tidy.writable hall hstored hread' (by rw [← he]; exact hvary) hm
  have hselects : ∀ q o, selects q o e.stored = selects q o { request := r, response := p, store := [] } := by
    intro q o
    cases q with
    | none => rfl
    | some q => exact finds_headers hU (by rw [← he]; rfl) (by rw [← he]; rfl)
  refine ⟨_, e.stored.response, hread, ?_, fun q o l hl => ⟨?_, ?_⟩, ?_⟩
  · rw [← he]
    exact ⟨rfl, JsNumber.same_toInt32 hresp.low hresp.high hint, rfl, store, hstore, rfl⟩
  · rw [matchAll_stored hU (matchAll_valid hl) hw.tidy.writable hs hread] at hl
    · exact (Except.ok.inj hl).symm
    · rintro q rfl x hx
      exact matchAll_total hl hread _ (mem_map_of_mem hx)
  · rw [hmatch (matchAll_valid hl), hselects, hkept]
    rintro q rfl x hx
    exact matchAll_total hl hread _ (hmem x hx)
  · have hnone : answers (some r) none kept = [] := by rw [hkept]; exact answers_kept r _
    have hitself : selects (some r) none e.stored = true := by
      rw [hselects]
      exact selects_itself hU hreq.method hresp.noStar hvary []
    rw [matchFirst, hmatch (validateRequest_ok hU hreq) fun q hq x hx => ?_, hnone, hitself]
    · rfl
    · cases hq
      exact htotal x (hmem x hx)

end

/-! ## Puts on fixed inputs -/

/-- URLs that are their own text, which is one line. -/
def lineUrls : UrlApi where
  Url := { t : Text // '\n' ∉ t }
  parse t _ := if h : '\n' ∉ t then some ⟨t, h⟩ else none
  href u := u.1
  protocol u := u.1.takeWhile (· != ':') ++ ":".toList
  clearSearch u := ⟨u.1.takeWhile (· != '?'), fun h => u.2 ((takeWhile_sublist _).subset h)⟩
  clearHash u := ⟨u.1.takeWhile (· != '#'), fun h => u.2 ((takeWhile_sublist _).subset h)⟩

def linePlatform : Platform := { url := lineUrls, hasLocation := true, location := [] }

def lineRequest : Request linePlatform := { url := ⟨"http://a/".toList, by decide⟩, method := get, headers := Headers.empty }

def firstPut : List (CacheOp linePlatform) := [.put lineRequest (plainResponse 200 [1])]

/-- A response that replaces another one for the same request. -/
theorem put_then_match_again :
    ∃ d d' p', run (cacheStep id) {} firstPut = some d ∧ put id lineRequest (plainResponse 201 [2]) d = .ok d' ∧
      Returned (plainResponse 201 [2]) p' ∧ matchFirst (some lineRequest) none d' = .ok (some p') := by
  have hreparses : linePlatform.url.Reparses := fun u _ => dif_pos u.2
  have hline : NoNewline linePlatform.url := fun u => u.2
  have hplain : TrimmedHeaders lineRequest.headers.data ∧ PlainHeaders (plainResponse 201 [2]).headers.data := by
    refine ⟨nofun, nofun, nofun⟩
  have h := @put_then_match linePlatform id hreparses hline {lineRequest} (fun _ _ _ _ h => h) firstPut _ rfl
    ⟨⟨rfl, nofun, nofun, nofun⟩, trivial⟩ lineRequest (plainResponse 201 [2]) rfl hplain.1 hplain.2 (by decide) (by decide) (by decide)
    (by decide) _ rfl
  obtain ⟨storage, p', -, hreturned, -, hfirst⟩ := h
  exact ⟨_, _, p', rfl, rfl, hreturned, hfirst⟩

/-- Status 200.5 -/
def halfStatus : Response := { plainResponse 200 [1] with status := { num := 401, exp := 1 } }

/-- With a location, the constructor deletes `set-cookie` and skips `set-cookie2`, which is lost
    only when the response is stored; a status is stored without its fraction. -/
theorem put_changes_response :
    (∃ p d p', Response.new linePlatform (.string [120])
        { headers := [("set-cookie".toList, "a=1".toList), ("set-cookie2".toList, "b=2".toList)] } = .ok p ∧
      p.headers.data = [("set-cookie2".toList, "b=2".toList)] ∧ put id lineRequest p {} = .ok d ∧
      matchFirst (some lineRequest) none d = .ok (some p') ∧ p'.headers.data = []) ∧
    ∃ d p', put id lineRequest halfStatus {} = .ok d ∧ matchFirst (some lineRequest) none d = .ok (some p') ∧
      p'.status = .ofInt 200 ∧ ¬ (JsNumber.ofInt 200).Same halfStatus.status :=
  ⟨⟨_, _, _, rfl, rfl, rfl, rfl, rfl⟩, ⟨_, _, rfl, rfl, rfl, by simp [JsNumber.Same, JsNumber.ofInt, halfStatus]⟩⟩

end Aworker.Cache
