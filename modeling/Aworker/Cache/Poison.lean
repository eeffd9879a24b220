/-
  Aworker.Cache.Poison — a cache that rejects every call because of one entry.

  `put` checks a response with `validateResponse`; the reader builds it with the `Response`
  constructor and looks its `vary` fields up with `headers.get`. What the first accepts the
  others may throw on, and every later call reads every entry.

  - `sound_serves`: from sound files no call rejects because of an entry.
  Also `cache_serves_iff`, `put_poisons`.
-/

import Mathlib
import Aworker.Cache.Store

namespace Aworker.Cache

open Aworker.Lib Aworker.Fetch

variable {P : Platform} (hash : Text → Text)

/-! ## Calls that do not reject -/

/-- The reader can build the response again, and look its fields up. -/
def storable (p : Response) : Bool := p.status.toInt32 != 204 && p.status.toInt32 != 205 && varyLegal p.headers.data

/-- No call rejects because of an entry: every entry is built and its matches are booleans, the
    calls with a valid request are answered, and what an empty cache accepts is accepted. -/
structure Serves (P : Platform) (hash : Text → Text) (d : Disk) : Prop where
  entries : ∃ storage, readCacheFullStorage P d = .ok storage ∧ ∀ e ∈ storage, ∀ q o, ∃ b, matchEntry q o e = .ok b
  matchAll : ∀ (q : Option (Request P)) o, validateRequest q = .ok () → ∃ l, matchAll q o d = .ok l
  matchFirst : ∀ (q : Option (Request P)) o, validateRequest q = .ok () → ∃ p, matchFirst q o d = .ok p
  keys : ∀ (q : Option (Request P)) o, ∃ l, keys q o d = .ok l
  delete : ∀ (q : Request P) o, validateRequest (some q) = .ok () → ∃ d', delete hash q o d = .ok d'
  put : ∀ (q : Request P) p, (∃ d', put hash q p {} = .ok d') → ∃ d', put hash q p d = .ok d'

inductive CacheOp (P : Platform) where
  | put (request : Request P) (response : Response)
  | addAll (fetched : List (Request P × Response))
  | delete (request : Request P) (options : Option CacheQueryOptions)

/-- A successful call; the calls that only read leave the files as they are. -/
def cacheStep (d : Disk) : CacheOp P → Option Disk
  | .put request response => (put hash request response d).toOption
  | .addAll fetched => (addAll hash fetched d).toOption
  | .delete request options => (delete hash request options d).toOption

def Storable : CacheOp P → Prop
  | .put _ response => storable response = true
  | .addAll fetched => ∀ x ∈ fetched, storable x.2 = true
  | .delete _ _ => True

variable {d d' : Disk} {items : List CachedEntry} {p : Response} {operations : List (Operation P)} {r : Request P}
  {fetched : List (Request P × Response)} {storage : List (Entry P)} {e : Entry P}

section

variable (hU : P.url.Reparses)
include hU

theorem listCacheKeys_ok (h : ∀ item ∈ items, ItemOk P d item) : ∃ l, listCacheKeys P items = .ok l := by
  induction items with
  | nil => exact ⟨[], rfl⟩
  | cons item items ih =>
    have hi := h item List.mem_cons_self
    obtain ⟨u, hu⟩ := hi.url
    obtain ⟨rh, -, hreq⟩ := Request.rebuild (P := P) hU u hi.headers
    obtain ⟨l, hl⟩ := ih fun x hx => h x (List.mem_cons_of_mem _ hx)
    exact ⟨_, by simp [listCacheKeys, hu, hi.method, hreq, hl, bind, Except.bind]; rfl⟩

theorem sound_serves (h : Sound P d) : Serves P hash d := by
  obtain ⟨storage, hread, hall⟩ := readItems_ok hU h
  have hread : readCacheFullStorage P d = .ok storage := hread
  have hmatchAll : ∀ (q : Option (Request P)) o, validateRequest q = .ok () → ∃ l, matchAll q o d = .ok l := by
    intro q o hq
    cases q with
    | none =>
      obtain ⟨l, hl⟩ := cloneAll_ok hall
      exact ⟨l, by simp [Cache.matchAll, hq, hread, hl, bind, Except.bind]⟩
    | some q =>
      obtain ⟨l, hl⟩ := queryCache_ok hU q o hall
      exact ⟨_, by simp [Cache.matchAll, hq, hread, hl, bind, Except.bind]; rfl⟩
  refine ⟨⟨storage, hread, fun e he q o => match_total hU q e.request (hall e he).ok.vary o⟩, hmatchAll, ?_, ?_, ?_, ?_⟩
  · intro q o hq
    obtain ⟨l, hl⟩ := hmatchAll q o hq
    exact ⟨l.head?, by simp [Cache.matchFirst, hl, bind, Except.bind]⟩
  · intro q o
    cases q with
    | none => exact listCacheKeys_ok hU h
    | some q =>
      obtain ⟨l, hl⟩ := queryCache_ok hU q o hall
      exact ⟨_, by simp [Cache.keys, hread, hl, bind, Except.bind]; rfl⟩
  · intro q o hq
    obtain ⟨l, hl⟩ := removeMatched_ok hU q o hall
    exact ⟨_, by simp [Cache.delete, hq, batchCacheOperations, hread, atomicSteps_delete, hl, bind, Except.bind]; rfl⟩
  · rintro q p ⟨d', hd'⟩
    obtain ⟨op, hop, hb⟩ := bind_ok.mp hd'
    obtain ⟨cloned, store, -, -, rfl⟩ := preparePut_ok hop
    obtain ⟨st, -, hb⟩ := bind_ok.mp hb
    obtain ⟨st', hat, -⟩ := bind_ok.mp hb
    obtain ⟨l, hl⟩ := removeMatched_ok hU q none hall
    have hat' := atomicSteps_put hU (atomicSteps_put_inv hU hat) cloned store storage
    rw [hl] at hat'
    exact ⟨_, bind_ok.mpr ⟨_, hop, bind_ok.mpr ⟨storage, hread, bind_ok.mpr ⟨_, hat', rfl⟩⟩⟩⟩

/-! ## What the calls keep -/

omit hU in
theorem storable_status (hs : storable p = true) (hlow : p.status.ltInt 200 = false) (hhigh : p.status.gtInt 299 = false) :
    StatusOk p.status.toInt32 ∧ varyLegal p.headers.data = true := by
  obtain ⟨⟨h4, h5⟩, hv⟩ : (p.status.toInt32 ≠ 204 ∧ p.status.toInt32 ≠ 205) ∧ varyLegal p.headers.data = true := by
    simpa [storable] using hs
  obtain ⟨-, hlo, hhi⟩ := JsNumber.toInt32_ok hlow hhigh
  exact ⟨⟨hlo, hhi, h4, h5⟩, hv⟩

theorem sound_batch (h : Sound P d)
    (hops : ∀ op ∈ operations, ∀ p store, op.response = some (p, store) → StatusOk p.status.toInt32 ∧ varyLegal p.headers.data = true)
    (hd : batchCacheOperations hash operations d = .ok d') : Sound P d' := by
  obtain ⟨storage, hread, hd⟩ := bind_ok.mp hd
  obtain ⟨storage', hat, hwrite⟩ := bind_ok.mp hd
  obtain ⟨read, hread', hall⟩ := readItems_ok hU h
  obtain rfl : read = storage := Except.ok.inj (hread'.symm.trans hread)
  rw [← Except.ok.inj hwrite]
  apply sound_write
  intro e he
  rcases atomicSteps_mem hat he with he | ⟨hget, op, hop, hr⟩
  · exact (hall e he).ok
  · obtain ⟨hs, hv⟩ := hops op hop _ _ hr
    exact ⟨hget, hs, hv⟩

theorem sound_put (h : Sound P d) (hs : storable p = true) (hd : put hash r p d = .ok d') : Sound P d' := by
  obtain ⟨op, hop, hd⟩ := bind_ok.mp hd
  obtain ⟨cloned, store, hp, -, rfl⟩ := preparePut_ok hop
  obtain ⟨hstatus, hvary⟩ := storable_status hs hp.low hp.high
  obtain ⟨hd', hhd, hcl⟩ := hp.clone
  refine sound_batch hash hU h (fun op hop p' store' hr => ?_) hd
  rw [List.mem_singleton.mp hop] at hr
  cases hr
  rw [hcl]
  refine ⟨hstatus, ?_⟩
  rw [varyLegal, fieldValues_rebuilt p.headers.ok hhd]
  exact hvary

omit hU in
theorem addAllOperations_ok (h : addAllOperations fetched = .ok operations) (hs : ∀ x ∈ fetched, storable x.2 = true) :
    ∀ op ∈ operations, ∀ p store, op.response = some (p, store) → StatusOk p.status.toInt32 ∧ varyLegal p.headers.data = true := by
  induction fetched generalizing operations with
  | nil => rw [← Except.ok.inj h]; simp
  | cons x fetched ih =>
    obtain ⟨_, -, h⟩ := bind_ok.mp h
    obtain ⟨shared, hshared, h⟩ := bind_ok.mp h
    obtain ⟨rest, hrest, h⟩ := bind_ok.mp h
    obtain ⟨_, hv, hshared⟩ := bind_ok.mp hshared
    obtain ⟨body, -, hshared⟩ := bind_ok.mp hshared
    split at hshared
    · cases hshared
    rw [← Except.ok.inj h]
    intro op hop p store hr
    rcases List.mem_cons.mp hop with rfl | hop
    · obtain ⟨hlow, hhigh, -⟩ := validateResponse_ok hv
      rw [← Except.ok.inj hshared] at hr
      cases hr
      exact storable_status (hs x List.mem_cons_self) hlow hhigh
    · exact ih hrest (fun y hy => hs y (List.mem_cons_of_mem _ hy)) op hop p store hr

theorem sound_addAll (h : Sound P d) (hs : ∀ x ∈ fetched, storable x.2 = true)
    (hd : addAll hash fetched d = .ok d') : Sound P d' := by
  obtain ⟨operations, hops, hd⟩ := bind_ok.mp hd
  split at hd
  · rw [← Except.ok.inj hd]; exact h
  · exact sound_batch hash hU h (addAllOperations_ok hops hs) hd

theorem sound_delete {o : Option CacheQueryOptions} (h : Sound P d) (hd : delete hash r o d = .ok d') : Sound P d' := by
  obtain ⟨_, -, hd⟩ := bind_ok.mp hd
  refine sound_batch hash hU h (fun op hop p store hr => ?_) hd
  rw [List.mem_singleton.mp hop] at hr
  cases hr

omit hU in
theorem toOption_some {α : Type} {x : Except JsError α} {a : α} (h : x.toOption = some a) : x = .ok a := by
  cases x with
  | error e => cases h
  | ok b => exact congrArg Except.ok (Option.some.inj h)

theorem sound_step (d : Disk) (e : CacheOp P) (d' : Disk) (h : Sound P d) (hs : Storable e) (hd : cacheStep hash d e = some d') :
    Sound P d' := by
  cases e with
  | put r p => exact sound_put hash hU h hs (toOption_some hd)
  | addAll fetched => exact sound_addAll hash hU h hs (toOption_some hd)
  | delete r o => exact sound_delete hash hU h (toOption_some hd)

/-! ## What spoils the cache -/

omit hU in
theorem readItems_snoc {item : CachedEntry} (h : readItems P d (items ++ [item]) = .ok storage) :
    ∃ init last, readItem P d item = .ok last ∧ storage = init ++ last.toList := by
  induction items generalizing storage with
  | nil =>
    obtain ⟨last, hl, h⟩ := bind_ok.mp h
    exact ⟨[], last, hl, by simpa [readItems] using (Except.ok.inj h).symm⟩
  | cons x items ih =>
    obtain ⟨e, -, h⟩ := bind_ok.mp h
    obtain ⟨rest, hr, h⟩ := bind_ok.mp h
    obtain ⟨init, last, hl, rfl⟩ := ih hr
    exact ⟨e.toList ++ init, last, hl, by rw [← Except.ok.inj h, List.append_assoc]⟩

omit hU in
theorem readItems_last {kept : List (Entry P)}
    (h : readCacheFullStorage P (writeStorage hash (kept ++ [e]) d) = .ok storage) :
    ∃ init last, readItem P (writeStorage hash (kept ++ [e]) d) (e.item hash) = .ok last ∧ storage = init ++ last.toList := by
  have hitems : (writeStorage hash (kept ++ [e]) d).items = kept.map (Entry.item hash) ++ [e.item hash] := by
    simp [writeStorage, Disk.items]
  rw [readCacheFullStorage, hitems] at h
  exact readItems_snoc h

/-- An entry with a status that put accepts, read back: the status has a body, and the request
    and the fields are those that were written. -/
theorem readItem_written (hget : e.request.method = get) (hlo : 200 ≤ e.response.status.toInt32)
    (hhi : e.response.status.toInt32 ≤ 299) (hobj : d.objects (e.path hash) = some e.objectPage) {last : Option (Entry P)}
    (hl : readItem P d (e.item hash) = .ok last) :
    e.response.status.toInt32 ≠ 204 ∧ e.response.status.toInt32 ≠ 205 ∧ ∃ e', last = some e' ∧ e'.request.method = get ∧
      e'.request.url = e.request.url ∧ fieldValues e'.response.headers.data vary = fieldValues e.response.headers.data vary := by
  obtain ⟨rh, -, hreq⟩ := Request.rebuild (P := P) hU e.request.url e.request.headers.ok
  obtain ⟨ph, hph⟩ := ofTuples_isOk e.response.headers.ok
  have hne : ¬ (e.response.url = [] ∧ e.response.status.toInt32 = 0) := by
    rintro ⟨-, h0⟩
    omega
  simp only [readItem, Entry.item, hget, hreq, hobj, Entry.objectPage, hne, if_false] at hl
  obtain ⟨request, hrequest, hl⟩ := bind_ok.mp hl
  obtain ⟨response, hresponse, hl⟩ := bind_ok.mp hl
  have hstatus : e.response.status.toInt32 ≠ 204 ∧ e.response.status.toInt32 ≠ 205 := by
    -- the body is a buffer, which counts as a body even when it is empty
    have hnull : nullBodyStatus.any (JsNumber.ofInt e.response.status.toInt32).eqInt = false := Response.new_nullBody P hresponse
    simp only [nullBodyStatus, List.any_cons, JsNumber.ofInt_eqInt, Bool.or_eq_false_iff, beq_eq_false_iff_ne] at hnull
    exact ⟨hnull.2.1, hnull.2.2.1⟩
  rw [buildResponse hph ⟨hlo, hhi, hstatus⟩] at hresponse
  refine ⟨hstatus.1, hstatus.2, _, (Except.ok.inj hl).symm, by rw [← Except.ok.inj hrequest], by rw [← Except.ok.inj hrequest], ?_⟩
  rw [← Except.ok.inj hresponse]
  exact fieldValues_rebuilt e.response.headers.ok hph

theorem storable_of_serves (hd : put hash r p d = .ok d') (hs : Serves P hash d') : storable p = true := by
  obtain ⟨cloned, store, storage, kept, hr, hp, -, hread, hk, rfl⟩ := put_ok hash hU hd
  obtain ⟨h, hh, hcl⟩ := hp.clone
  obtain ⟨storage', hst, hbool⟩ := hs.entries
  obtain ⟨init, last, hl, rfl⟩ := readItems_last hash hst
  obtain ⟨-, hlo, hhi⟩ := JsNumber.toInt32_ok hp.low hp.high
  have hstatus : cloned.status = p.status := by rw [hcl]
  have hfields : fieldValues cloned.headers.data vary = fieldValues p.headers.data vary := by
    rw [hcl]
    exact fieldValues_rebuilt p.headers.ok hh
  obtain ⟨h4, h5, e, rfl, hget, -, hfv⟩ := readItem_written hash hU (e := { request := r, response := cloned, store := store }) hr.method
    (by rw [hstatus]; exact hlo) (by rw [hstatus]; exact hhi) (writeObjects_snoc hash kept _ d.objects) hl
  have hfv : fieldValues e.response.headers.data vary = fieldValues p.headers.data vary := hfv.trans hfields
  have hvary : varyLegal p.headers.data = true := by
    -- the stored request, asked for again, reaches every field
    have hitself := match_itself hU hget (p := e.response) (by rw [hfv]; exact hp.noStar)
    obtain ⟨b, hb⟩ := hbool e (by simp) e.request none
    rw [varyLegal, ← hfv]
    by_contra hn
    rw [if_neg (by rw [varyLegal]; exact hn)] at hitself
    obtain ⟨err, herr⟩ := hitself
    rw [matchEntry, herr] at hb
    cases hb
  rw [hstatus] at h4 h5
  simp [storable, h4, h5, hvary]

/-- In every state reached by calls that stored only storable responses no call rejects because
    of an entry; and a further put that is accepted keeps it so exactly if its response is
    storable. -/
theorem cache_serves_iff {es : List (CacheOp P)} {d : Disk} (hr : run (cacheStep hash) {} es = some d)
    (ha : Along (cacheStep hash) (fun _ e => Storable e) {} es) :
    Serves P hash d ∧ ∀ (r : Request P) (p : Response) (d' : Disk), put hash r p d = .ok d' → (Serves P hash d' ↔ storable p = true) := by
  have hsound : Sound P d := run_inv (I := Sound P) (fun d e d' => sound_step hash hU d e d') (by nofun) ha hr
  refine ⟨sound_serves hash hU hsound, fun r p d' hd => ⟨storable_of_serves hash hU hd, fun hs => ?_⟩⟩
  exact sound_serves hash hU (sound_put hash hU hsound hs hd)

end

/-! ## Two entries that spoil it -/

/-- URLs that are their own text, for runs on fixed inputs. -/
def textUrls : UrlApi where
  Url := Text
  parse t _ := some t
  href u := u
  protocol u := u.takeWhile (· != ':') ++ ":".toList
  clearSearch u := u.takeWhile (· != '?')
  clearHash u := u.takeWhile (· != '#')

def textPlatform : Platform := { url := textUrls, hasLocation := false, location := [] }

theorem textUrls_reparses : textPlatform.url.Reparses := fun _ _ => rfl

def getRequest (url : Text) : Request textPlatform := { url, method := get, headers := Headers.empty }

def plainResponse (status : Int) (body : Bytes) : Response where
  url := []
  status := .ofInt status
  headers := Headers.empty
  type := .default
  body := .buffer body

def emptyResponse (status : Int) : Response := { plainResponse status [] with body := .null }

/-- `vary: a b` -/
def spacedVary : Response :=
  { plainResponse 200 [1] with headers := ⟨[(vary, "a b".toList)], by decide, by decide, List.pairwise_singleton _ _⟩ }

theorem cache_serves_second :
    ∃ d, run (cacheStep id) {} [CacheOp.put (getRequest "http://a/".toList) (plainResponse 200 [1])] = some d ∧ Serves textPlatform id d ∧
      ∃ d', put id (getRequest "http://b/".toList) (plainResponse 201 [2]) d = .ok d' ∧ Serves textPlatform id d' := by
  refine ⟨_, rfl, ?_⟩
  have h := @cache_serves_iff textPlatform id textUrls_reparses [.put (getRequest "http://a/".toList) (plainResponse 200 [1])] _ rfl
    ⟨rfl, trivial⟩
  exact ⟨h.1, _, rfl, (h.2 (getRequest "http://b/".toList) (plainResponse 201 [2]) _ rfl).mpr rfl⟩

/-- A put of a 204 response resolves, and so does one with a space in a field name; after the
    first no entry can be read, after the second the entry's own request throws. -/
theorem put_poisons :
    (∃ d, put id (getRequest "http://a/".toList) (emptyResponse 204) {} = .ok d ∧
      matchAll (P := textPlatform) none none d = typeError "Response with null body status cannot have body") ∧
    (∃ d, put id (getRequest "http://a/".toList) spacedVary {} = .ok d ∧
      delete id (getRequest "http://a/".toList) none d = typeError "a b is not a legal HTTP header name") :=
  ⟨⟨_, rfl, rfl⟩, ⟨_, rfl, rfl⟩⟩

end Aworker.Cache
