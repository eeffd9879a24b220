/-
  Aworker.Cache.Batches — what batches of operations leave (lib/cache.js:
  `batchCacheOperations`, `batchCacheOperationsAtomicSteps`, `writeCachePage`,
  `writeCacheObjectPages`, `readCacheFullStorage`; aworker_cache.cc: `WriteCachePage`,
  `WriteCacheObjectPage`, both `PathForCacheObjectPage`).

  A put removes every entry its request matches and appends its own, so no entry is matched
  by the request of a later one. Matching asks the older response's `vary` header about
  both requests, so this is not symmetric, and more than that keys differ. The next batch
  works on what it reads back: request headers come back trimmed, a response may lose
  `set-cookie`, and two entries under one file name would both get the later one's page.

  A response with `vary: *` matches no request, not even its own. Two of them for one request
  stay in the list and share a file; `put` and `addAll` reject such responses before the batch.

  Both results are about every run of batches whose puts have trimmed request headers and no
  `*`, and whose file names do not collide:
  - `own_object_files`: index and object page of an entry carry the same file name, no two
    entries share one, and every request is read back with its own response. With a `*`:
    `star_shares_file`.
  Also `no_shadowed_entries`.
-/

import Mathlib
import Aworker.Cache.PutMatch

namespace Aworker.Cache

open Aworker.Lib Aworker.Fetch
open List hiding get

variable {P : Platform} (hash : Text → Text)

/-! ## Files as the binding writes them -/

/-- `PathForCacheObjectPage(immortal, cacheName, CachedEntry*)`, in the cache's directory -/
def CachedEntry.path (item : CachedEntry) : Text := pathForCacheObjectPage hash item.reqMethod item.url item.reqHeaders

/-- `PathForCacheObjectPage(immortal, cacheName, const CachedRequest)` -/
def CachedRequest.path (request : CachedRequest) : Text := pathForCacheObjectPage hash request.method request.url request.headers

/-- What `writeCachePage` of lib/cache.js hands over for an entry, before the binding names its file. -/
def Entry.message (e : Entry P) : CachedEntry where
  url := P.url.href e.request.url
  reqMethod := e.request.method
  reqHeaders := e.request.headers.data
  vary := (dataGet e.response.headers.data vary).getD []
  cacheObjectFilename := []

/-- `WriteCachePage` -/
def writeCachePage (items : List CachedEntry) : CachePage where
  entries := items.map fun item => { item with cacheObjectFilename := item.path hash }

/-- `WriteCacheObjectPage` -/
def writeCacheObjectPage (objects : Text → Option CacheObjectPage) (page : CacheObjectPage) : Text → Option CacheObjectPage :=
  Function.update objects (page.request.path hash) (some page)

theorem writeObjects_foldl (storage : List (Entry P)) (objects : Text → Option CacheObjectPage) :
    writeObjects hash storage objects = (storage.map Entry.objectPage).foldl (writeCacheObjectPage hash) objects := by
  induction storage generalizing objects with
  | nil => rfl
  | cons e storage ih => exact ih _

theorem writeStorage_binding (storage : List (Entry P)) (d : Disk) :
    writeStorage hash storage d =
      { index := some (writeCachePage hash (storage.map Entry.message))
        objects := (storage.map Entry.objectPage).foldl (writeCacheObjectPage hash) d.objects } := by
  rw [writeStorage, writeObjects_foldl, writeCachePage, map_map]
  rfl

/-! ## Runs of batches -/

variable (P) in
/-- The entries the last batch has written, and the files. -/
structure Left where
  entries : List (Entry P) := []
  disk : Disk := {}

/-- A successful `batchCacheOperations`. -/
def batchStep (s : Left P) (operations : List (Operation P)) : Option (Left P) :=
  match readCacheFullStorage P s.disk with
  | .error _ => none
  | .ok storage =>
    match batchCacheOperationsAtomicSteps operations storage [] with
    | .error _ => none
    | .ok entries => some { entries, disk := writeStorage hash entries s.disk }

theorem batchStep_disk (s : Left P) (operations : List (Operation P)) :
    (batchStep hash s operations).map Left.disk = (batchCacheOperations hash operations s.disk).toOption := by
  unfold batchStep batchCacheOperations
  cases readCacheFullStorage P s.disk with
  | error e => rfl
  | ok storage =>
    simp only [bind, Except.bind]
    cases batchCacheOperationsAtomicSteps operations storage [] with
    | error e => rfl
    | ok entries => rfl

/-- No entry is matched by the request of a later one. -/
def NoShadow (storage : List (Entry P)) : Prop :=
  storage.Pairwise fun older newer => matchEntry newer.request none older = .ok false

/-- A put with trimmed request headers and a response that `put` and `addAll` do not reject for its `*`. -/
def CleanOp (op : Operation P) : Prop :=
  ∀ p store, op.response = some (p, store) → TrimmedHeaders op.request.headers.data ∧ star ∉ fieldValues p.headers.data vary

/-- The requests that are put are among `R`. -/
def PutsAmong (R : Set (Request P)) (op : Operation P) : Prop := ∀ x, op.response = some x → op.request ∈ R

structure CleanEntry (R : Set (Request P)) (e : Entry P) : Prop where
  method : e.request.method = get
  trimmed : TrimmedHeaders e.request.headers.data
  noStar : star ∉ fieldValues e.response.headers.data vary
  known : e.request ∈ R

structure LeftOk (R : Set (Request P)) (s : Left P) : Prop where
  clean : ∀ e ∈ s.entries, CleanEntry R e
  noShadow : NoShadow s.entries
  items : s.disk.items = s.entries.map (Entry.item hash)
  objects : ∀ e ∈ s.entries, s.disk.objects (e.path hash) = some e.objectPage

/-! ## Reading back -/

/-- `e'` is `e` read back from its files. -/
structure Reread (e e' : Entry P) : Prop where
  request : e'.request = e.request
  url : e'.response.url = e.response.url
  status : e'.response.status = .ofInt e.response.status.toInt32
  body : e'.response.body = .buffer e.store
  store : e'.store = e.store
  headers : ∃ h, Headers.ofTuples e.response.headers.data = .ok h ∧ e'.response.headers = defaultHeaders P h

/-- An entry the reader skips. -/
def Entry.blank (e : Entry P) : Bool := e.response.url = [] ∧ e.response.status.toInt32 = 0

variable {e e' : Entry P}

theorem Reread.fieldValues (h : Reread e e') :
    fieldValues e'.response.headers.data vary = fieldValues e.response.headers.data vary := by
  obtain ⟨hd, hhd, he⟩ := h.headers
  rw [he]
  exact fieldValues_rebuilt e.response.headers.ok hhd

variable {w w' : List (Entry P)}

theorem reread_mem (h : List.Forall₂ Reread w w') (he : e' ∈ w') : ∃ e ∈ w, Reread e e' := by
  induction h with
  | nil => cases he
  | @cons x x' w w' hx _ ih =>
    rcases mem_cons.mp he with rfl | he
    · exact ⟨x, mem_cons_self, hx⟩
    · obtain ⟨e, hmem, hr⟩ := ih he
      exact ⟨e, mem_cons_of_mem _ hmem, hr⟩

variable {R : Set (Request P)}

theorem Reread.clean (h : Reread e e') (he : CleanEntry R e) : CleanEntry R e' := by
  refine ⟨?_, ?_, ?_, ?_⟩
  · rw [h.request]
    exact he.method
  · rw [h.request]
    exact he.trimmed
  · rw [h.fieldValues]
    exact he.noStar
  · rw [h.request]
    exact he.known

variable {d : Disk} {storage : List (Entry P)} {s : Left P} {operations : List (Operation P)}

section

variable (hU : P.url.Reparses)
include hU

theorem Reread.match (h : Reread e e') (q : Request P) (o : Option CacheQueryOptions) :
    matchEntry q o e' = matchEntry q o e := by
  unfold matchEntry
  rw [match_eq hU, match_eq hU, h.request, h.fieldValues]

theorem readItem_reread (he : CleanEntry R e)
    (hobj : d.objects (e.path hash) = some e.objectPage) {last : Option (Entry P)} (hl : readItem P d (e.item hash) = .ok last) :
    e.blank = true ∧ last = none ∨ e.blank = false ∧ ∃ e', last = some e' ∧ Reread e e' := by
  obtain ⟨rh, hrh, hreq⟩ := Request.rebuild (P := P) hU e.request.url e.request.headers.ok
  obtain rfl : rh = e.request.headers := by
    rw [ofTuples_stable e.request.headers he.trimmed] at hrh
    exact (Except.ok.inj hrh).symm
  simp only [readItem, Entry.item, he.method, hreq, hobj, Entry.objectPage, bind, Except.bind] at hl
  by_cases hb : e.response.url = [] ∧ e.response.status.toInt32 = 0
  · rw [if_pos hb] at hl
    exact .inl ⟨decide_eq_true hb, (Except.ok.inj hl).symm⟩
  · rw [if_neg hb] at hl
    obtain ⟨response, hresponse, hl⟩ := bind_ok.mp hl
    obtain ⟨hd, hhd, rfl⟩ := Response.new_inv P hresponse
    refine .inr ⟨decide_eq_false hb, _, (Except.ok.inj hl).symm, ?_, rfl, rfl, rfl, rfl, hd, hhd, rfl⟩
    rw [← he.method]

theorem readItems_reread (hw : ∀ e ∈ w, CleanEntry R e)
    (hobj : ∀ e ∈ w, d.objects (e.path hash) = some e.objectPage) (h : readItems P d (w.map (Entry.item hash)) = .ok storage) :
    List.Forall₂ Reread (w.filter (!·.blank)) storage := by
  induction w generalizing storage with
  | nil =>
    rw [← Except.ok.inj h]
    exact .nil
  | cons e w ih =>
    obtain ⟨last, hl, h⟩ := bind_ok.mp h
    obtain ⟨rest, hr, h⟩ := bind_ok.mp h
    have hrest := ih (fun x hx => hw x (mem_cons_of_mem _ hx)) (fun x hx => hobj x (mem_cons_of_mem _ hx)) hr
    rw [← Except.ok.inj h]
    rcases readItem_reread hash hU (hw e mem_cons_self) (hobj e mem_cons_self) hl with ⟨hb, rfl⟩ | ⟨hb, e', rfl, he'⟩
    · rw [filter_cons_of_neg (by simp [hb])]
      exact hrest
    · rw [filter_cons_of_pos (by simp [hb])]
      exact .cons he' hrest

theorem LeftOk.reread (h : LeftOk hash R s)
    (hread : readCacheFullStorage P s.disk = .ok storage) : List.Forall₂ Reread (s.entries.filter (!·.blank)) storage := by
  rw [readCacheFullStorage, h.items] at hread
  exact readItems_reread hash hU h.clean h.objects hread

theorem noShadow_reread (h : NoShadow w) (hw : List.Forall₂ Reread w w') : NoShadow w' := by
  induction hw with
  | nil => exact .nil
  | @cons e e' w w' he hw ih =>
    obtain ⟨hhead, htail⟩ := pairwise_cons.mp h
    refine pairwise_cons.mpr ⟨?_, ih htail⟩
    intro x' hx'
    obtain ⟨x, hx, hxx'⟩ := reread_mem hw hx'
    rw [he.match hU, hxx'.request]
    exact hhead x hx

/-! ## What a batch keeps -/

omit hU in
theorem noShadow_put {kept : List (Entry P)} (h : NoShadow storage) (e : Entry P)
    (hk : removeMatched e.request none storage = .ok kept) : NoShadow (kept ++ [e]) := by
  obtain ⟨rfl, htotal⟩ := removeMatched_filter hk
  refine pairwise_append.mpr ⟨h.sublist filter_sublist, pairwise_singleton _ _, ?_⟩
  intro x hx y hy
  obtain ⟨hmem, hnot⟩ := mem_filter.mp hx
  rw [mem_singleton.mp hy, htotal x hmem]
  simpa using hnot

/-- Of two entries that are both clean, a later one for the same request would match. -/
theorem requests_nodup (hc : ∀ e ∈ storage, CleanEntry R e) (h : NoShadow storage) :
    (storage.map Entry.request).Nodup := by
  rw [List.Nodup, pairwise_map]
  refine h.imp_of_mem ?_
  intro older newer hold hnew hmatch hsame
  have hitself := match_itself hU (hc older hold).method (hc older hold).noStar
  rw [← hsame] at hmatch
  cases hv : varyLegal older.response.headers.data with
  | true =>
    rw [hv, if_pos rfl] at hitself
    have hm : matchEntry older.request none older = .ok true := hitself
    rw [hm] at hmatch
    cases hmatch
  | false =>
    rw [hv, if_neg Bool.false_ne_true] at hitself
    obtain ⟨err, herr⟩ := hitself
    have hm : matchEntry older.request none older = .error err := herr
    rw [hm] at hmatch
    cases hmatch

variable (hN : NoNewline P.url) {R : Set (Request P)} (hR : NoCollision hash R)

include hN hR in
theorem paths_nodup (hc : ∀ e ∈ storage, CleanEntry R e) (h : NoShadow storage) :
    (storage.map (Entry.path hash)).Nodup := by
  have hreq := requests_nodup hU hc h
  rw [List.Nodup, pairwise_map] at hreq ⊢
  refine hreq.imp_of_mem ?_
  intro e e' he he' hne hpath
  have hkey : requestKey e.request = requestKey e'.request :=
    hR _ (hc e he).known _ (hc e' he').known (append_cancel_right hpath)
  exact hne (requestKey_inj hU hN (hc e he).method (hc e' he').method hkey)

omit hU in
theorem steps_keep {added storage' : List (Entry P)}
    (hops : ∀ op ∈ operations, CleanOp op ∧ PutsAmong R op) (hc : ∀ e ∈ storage, CleanEntry R e) (h : NoShadow storage)
    (hs : batchCacheOperationsAtomicSteps operations storage added = .ok storage') :
    (∀ e ∈ storage', CleanEntry R e) ∧ NoShadow storage' := by
  induction operations generalizing storage added with
  | nil =>
    rw [← Except.ok.inj hs]
    exact ⟨hc, h⟩
  | cons op operations ih =>
    obtain ⟨next, hnext, hs⟩ := bind_ok.mp hs
    obtain ⟨kept, hk, hcase⟩ := atomicStep_ok hnext
    have hsub : kept.Sublist storage := by
      rw [(removeMatched_filter hk).1]
      exact filter_sublist
    refine ih (fun x hx => hops x (mem_cons_of_mem _ hx)) ?_ ?_ hs
    · intro e he
      rcases hcase with ⟨-, hn⟩ | ⟨-, p, store, hr, hget, -, hn⟩
      · exact hc e (hsub.subset (hn ▸ he))
      · rw [hn] at he
        rcases mem_append.mp he with he | he
        · exact hc e (hsub.subset he)
        · obtain ⟨hclean, hamong⟩ := hops op mem_cons_self
          obtain ⟨htrim, hstar⟩ := hclean p store hr
          rw [mem_singleton.mp he]
          exact ⟨hget, htrim, hstar, hamong _ hr⟩
    · rcases hcase with ⟨-, hn⟩ | ⟨-, p, store, -, -, hopt, hn⟩
      · rw [hn]
        exact h.sublist hsub
      · rw [hn]
        rw [hopt] at hk
        exact noShadow_put h { request := op.request, response := p, store := store } hk

include hN hR in
theorem batchStep_keeps {s' : Left P} (h : LeftOk hash R s)
    (hops : ∀ op ∈ operations, CleanOp op ∧ PutsAmong R op) (hs : batchStep hash s operations = some s') : LeftOk hash R s' := by
  unfold batchStep at hs
  split at hs
  · cases hs
  next storage hread =>
    split at hs
    · cases hs
    next entries hsteps =>
      obtain rfl := Option.some.inj hs
      -- what was read back is clean and unshadowed as what was written is
      have hback := h.reread hash hU hread
      have hclean : ∀ e ∈ storage, CleanEntry R e := by
        intro e' he'
        obtain ⟨e, he, hr⟩ := reread_mem hback he'
        exact hr.clean (h.clean e (mem_of_mem_filter he))
      have hsh := noShadow_reread hU (h.noShadow.sublist filter_sublist) hback
      obtain ⟨hclean', hsh'⟩ := steps_keep hops hclean hsh hsteps
      have hpaths := paths_nodup hash hU hN hR hclean' hsh'
      exact ⟨hclean', hsh', rfl, fun e he => writeObjects_own hash hpaths s.disk.objects he⟩

include hN hR in
theorem leftOk_run {batches : List (List (Operation P))} (hops : ∀ ops ∈ batches, ∀ op ∈ ops, CleanOp op ∧ PutsAmong R op)
    (hr : run (batchStep hash) {} batches = some s) : LeftOk hash R s := by
  have h0 : LeftOk hash R ({} : Left P) := ⟨by simp, .nil, rfl, by simp⟩
  exact run_inv (Q := fun _ ops => ∀ op ∈ ops, CleanOp op ∧ PutsAmong R op)
    (fun _ _ _ h hq hs => batchStep_keeps hash hU hN hR h hq hs) h0 ((along_iff_forall hr).mpr hops) hr

end

/-! ## Requests and responses for runs on fixed inputs -/

/-- A request for one page, with an `accept` header. -/
def acceptRequest (accept : Text) (ok : HeadersOk [("accept".toList, accept)]) : Request linePlatform :=
  { lineRequest with headers := ⟨[("accept".toList, accept)], ok⟩ }

def htmlRequest : Request linePlatform := acceptRequest "text/html".toList ⟨by decide, by decide, pairwise_singleton _ _⟩

def jsonRequest : Request linePlatform := acceptRequest "text/json".toList ⟨by decide, by decide, pairwise_singleton _ _⟩

def otherRequest : Request linePlatform := { lineRequest with url := ⟨"http://b/".toList, by decide⟩ }

def varyResponse (value : Text) (ok : HeadersOk [(vary, value)]) (body : Bytes) : Response :=
  { plainResponse 200 body with headers := ⟨[(vary, value)], ok⟩ }

def varyAccept (body : Bytes) : Response := varyResponse "accept".toList ⟨by decide, by decide, pairwise_singleton _ _⟩ body

def varyStar (body : Bytes) : Response := varyResponse star ⟨by decide, by decide, pairwise_singleton _ _⟩ body

def putOp (request : Request linePlatform) (response : Response) (store : Bytes) : Operation linePlatform :=
  { type := .put, request, response := some (response, store) }

/-- Two variants of a page in one batch; then one of them again. -/
def variantBatches : List (List (Operation linePlatform)) :=
  [[putOp htmlRequest (varyAccept [1]) [1], putOp jsonRequest (varyAccept [2]) [2]], [putOp htmlRequest (varyAccept [3]) [3]]]

theorem putOp_clean {request : Request linePlatform} {response : Response} (hr : TrimmedHeaders request.headers.data)
    (hp : star ∉ fieldValues response.headers.data vary) (store : Bytes) : CleanOp (putOp request response store) := by
  intro p store' h
  obtain ⟨rfl, rfl⟩ := Prod.mk.inj (Option.some.inj h)
  exact ⟨hr, hp⟩

theorem variantBatches_clean : ∀ ops ∈ variantBatches, ∀ op ∈ ops, CleanOp op := by
  have hhtml : TrimmedHeaders htmlRequest.headers.data := forall_mem_singleton.mpr rfl
  have hjson : TrimmedHeaders jsonRequest.headers.data := forall_mem_singleton.mpr rfl
  have hfields : star ∉ fieldValues [(vary, "accept".toList)] vary := by decide
  have hvary : ∀ body, star ∉ fieldValues (varyAccept body).headers.data vary := fun _ => hfields
  intro ops ho op hop
  rcases mem_cons.mp ho with rfl | ho
  · rcases mem_cons.mp hop with rfl | hop
    · exact putOp_clean hhtml (hvary _) _
    · rw [mem_singleton.mp hop]
      exact putOp_clean hjson (hvary _) _
  · rw [mem_singleton.mp ho] at hop
    rw [mem_singleton.mp hop]
    exact putOp_clean hhtml (hvary _) _

/-! ## Shadowed entries -/

/-- No shadowed entries, in what a run of batches leaves and in what the next call reads. -/
theorem no_shadowed_entries (hU : P.url.Reparses) (hN : NoNewline P.url) {R : Set (Request P)} (hR : NoCollision hash R)
    {batches : List (List (Operation P))} {s : Left P} (hclean : ∀ ops ∈ batches, ∀ op ∈ ops, CleanOp op)
    (hamong : ∀ ops ∈ batches, ∀ op ∈ ops, PutsAmong R op) (hr : run (batchStep hash) {} batches = some s) :
    NoShadow s.entries ∧ ∀ storage, readCacheFullStorage P s.disk = .ok storage → NoShadow storage := by
  have hk := leftOk_run hash hU hN hR (fun ops ho op hop => ⟨hclean ops ho op hop, hamong ops ho op hop⟩) hr
  refine ⟨hk.noShadow, fun storage hread => ?_⟩
  exact noShadow_reread hU (hk.noShadow.sublist filter_sublist) (hk.reread hash hU hread)

theorem no_shadowed_variants :
    ∃ s, run (batchStep id) {} variantBatches = some s ∧ s.entries.map Entry.request = [jsonRequest, htmlRequest] ∧ NoShadow s.entries := by
  refine ⟨_, rfl, rfl, ?_⟩
  exact (@no_shadowed_entries linePlatform id (fun u _ => dif_pos u.2) (fun u => u.2) Set.univ (fun _ _ _ _ h => h) variantBatches _
    variantBatches_clean (fun _ _ _ _ _ _ => trivial) rfl).1

/-- A response with `vary: *` stays when its request is put again, both pages go to one file,
    and the batch after that reads the later page twice: the request of the second entry
    matches the first. So do two variants of a page if their file names collide. -/
theorem star_shadows :
    (∃ s older newer, run (batchStep id) {} [[putOp lineRequest (varyStar [1]) [1]], [putOp lineRequest (plainResponse 200 [2]) [2]],
        [{ type := .delete, request := otherRequest }]] = some s ∧
      s.entries = [older, newer] ∧ matchEntry newer.request none older = .ok true) ∧
    ∃ s older newer, run (batchStep fun _ => []) {} [[putOp htmlRequest (varyAccept [1]) [1]],
        [putOp jsonRequest (plainResponse 200 [2]) [2]], [{ type := .delete, request := otherRequest }]] = some s ∧
      s.entries = [older, newer] ∧ matchEntry newer.request none older = .ok true :=
  ⟨⟨_, _, _, rfl, rfl, rfl⟩, _, _, _, rfl, rfl, rfl⟩

/-! ## Object files -/

/-- The index names for every entry the file its page was written under, no two entries share
    one, and reading back gives every request its own response. -/
structure OwnFiles (s : Left P) : Prop where
  recorded : s.disk.items.map CachedEntry.cacheObjectFilename = s.entries.map fun e => e.message.path hash
  sameName : ∀ e ∈ s.entries, e.message.path hash = e.objectPage.request.path hash
  distinct : (s.entries.map fun e => e.objectPage.request.path hash).Nodup
  paired : ∀ storage, readCacheFullStorage P s.disk = .ok storage → List.Forall₂ Reread (s.entries.filter (!·.blank)) storage

theorem own_object_files (hU : P.url.Reparses) (hN : NoNewline P.url) (hinj : Function.Injective hash)
    {batches : List (List (Operation P))} {s : Left P} (hclean : ∀ ops ∈ batches, ∀ op ∈ ops, CleanOp op)
    (hr : run (batchStep hash) {} batches = some s) : OwnFiles hash s := by
  have hR : NoCollision hash (Set.univ : Set (Request P)) := fun _ _ _ _ h => hinj h
  have hk := leftOk_run hash hU hN hR (fun ops ho op hop => ⟨hclean ops ho op hop, fun _ _ => trivial⟩) hr
  refine ⟨?_, fun _ _ => rfl, paths_nodup hash hU hN hR hk.clean hk.noShadow, fun storage hread => hk.reread hash hU hread⟩
  rw [hk.items, map_map]
  rfl

theorem own_object_files_variants :
    ∃ s, run (batchStep id) {} variantBatches = some s ∧ s.entries.map Entry.request = [jsonRequest, htmlRequest] ∧ OwnFiles id s := by
  refine ⟨_, rfl, rfl, ?_⟩
  exact @own_object_files linePlatform id (fun u _ => dif_pos u.2) (fun u => u.2) Function.injective_id variantBatches _
    variantBatches_clean rfl

/-- Two responses with `vary: *` for one request. -/
theorem star_shares_file :
    ∃ s e e', run (batchStep id) {} [[putOp lineRequest (varyStar [1]) [1]], [putOp lineRequest (varyStar [2]) [2]]] = some s ∧
      s.entries = [e, e'] ∧ e.store = [1] ∧ e'.store = [2] ∧ e.objectPage.request.path id = e'.objectPage.request.path id :=
  ⟨_, _, _, rfl, rfl, rfl, rfl, rfl⟩

end Aworker.Cache
