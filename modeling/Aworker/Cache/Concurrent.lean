/-
  Aworker.Cache.Concurrent — calls of several workers on one cache (lib/cache.js:
  `readCacheFullStorage`, `listCacheKeys`, `batchCacheOperations` under the resource
  '[CachePage]<name>').

  A call first checks its arguments, and may reject before it asks for the resource. `match`,
  `matchAll` and `keys` acquire it to be shared; `put` and `delete` alone. Under it a call
  reads the index page, then the object pages one after the other, and a call that writes
  replaces the index page and then all object pages at once, whose writes end in any order.
  It releases the resource on every way out, also when it throws.

  A file is opened when its read begins; who reads a file that is being written may get
  anything from it (`Lib.File`).

  Main results: `alone_cache`, `lock_admits`, `cache_serializable`.
-/

import Mathlib
import Aworker.Cache.Poison
import Aworker.Lib.File
import Aworker.Lib.Serial

namespace Aworker.Cache

open Aworker.Lib Aworker.Fetch List Option

variable {P : Platform} (hash : Text → Text)

/-! ## The calls -/

inductive CacheCall (P : Platform) where
  | put (request : Request P) (response : Response)
  | delete (request : Request P) (options : Option CacheQueryOptions)
  | matchFirst (request : Option (Request P)) (options : Option CacheQueryOptions)
  | matchAll (request : Option (Request P)) (options : Option CacheQueryOptions)
  | keys (request : Option (Request P)) (options : Option CacheQueryOptions)

inductive CacheValue (P : Platform) where
  | undefined
  | response (p : Option Response)
  | responses (l : List Response)
  | requests (l : List (Request P))

abbrev Outcome (P : Platform) := Except JsError (CacheValue P)

def written (r : Except JsError Disk) (d : Disk) : Outcome P × Disk :=
  match r with
  | .ok d' => (.ok .undefined, d')
  | .error e => (.error e, d)

def CacheCall.exec (c : CacheCall P) (d : Disk) : Outcome P × Disk :=
  match c with
  | .put r p => written (Cache.put hash r p d) d
  | .delete r o => written (Cache.delete hash r o d) d
  | .matchFirst q o => ((Cache.matchFirst q o d).map .response, d)
  | .matchAll q o => ((Cache.matchAll q o d).map .responses, d)
  | .keys q o => ((Cache.keys q o d).map .requests, d)

inductive StorageUse (P : Platform) where
  | batch (operations : List (Operation P))
  | query (finish : List (Entry P) → Outcome P)

inductive LockedCall (P : Platform) where
  | listCacheKeys
  | withStorage (use : StorageUse P)

def queryAll (request : Option (Request P)) (options : Option CacheQueryOptions) (list : List (Entry P)) : Except JsError (List Response) :=
  match request with
  | none => cloneAll list
  | some r => (queryCache r options list).map (·.map Prod.snd)

/-- A call up to `acquireResource`. -/
def CacheCall.prepare : CacheCall P → Except JsError (LockedCall P)
  | .put r p => (preparePut r p).map fun op => .withStorage (.batch [op])
  | .delete r o => (validateRequest (some r)).map fun _ => .withStorage (.batch [{ type := .delete, request := r, options := o }])
  | .matchFirst q o => (validateRequest q).map fun _ => .withStorage (.query fun list => (queryAll q o list).map (.response ·.head?))
  | .matchAll q o => (validateRequest q).map fun _ => .withStorage (.query fun list => (queryAll q o list).map .responses)
  | .keys none _ => .ok .listCacheKeys
  | .keys (some r) o => .ok (.withStorage (.query fun list => (queryCache r o list).map fun found => .requests (found.map Prod.fst)))

/-- `exclusive` is false -/
def CacheCall.readOnly : CacheCall P → Bool
  | .put _ _ => false
  | .delete _ _ => false
  | _ => true

def LockedCall.exec (k : LockedCall P) (d : Disk) : Outcome P × Disk :=
  match k with
  | .listCacheKeys => ((Cache.listCacheKeys P d.items).map .requests, d)
  | .withStorage (.query finish) => (readCacheFullStorage P d >>= finish, d)
  | .withStorage (.batch operations) => written (batchCacheOperations hash operations d) d

theorem matchAll_eq (q : Option (Request P)) (o : Option CacheQueryOptions) (d : Disk) :
    matchAll q o d = (validateRequest q >>= fun _ => readCacheFullStorage P d >>= queryAll q o) := by
  cases q with
  | none => rfl
  | some r =>
    have hfound : ∀ list, (queryCache r o list >>= fun found => .ok (found.map Prod.snd)) = queryAll (some r) o list := by
      intro list
      rw [queryAll]
      cases queryCache r o list <;> rfl
    simp only [matchAll, hfound]

theorem exec_prepare (c : CacheCall P) (d : Disk) :
    c.exec hash d = match c.prepare with
      | .error e => (.error e, d)
      | .ok k => k.exec hash d := by
  cases c with
  | put r p =>
    simp only [CacheCall.exec, CacheCall.prepare, Cache.put]
    cases preparePut r p <;> rfl
  | delete r o =>
    simp only [CacheCall.exec, CacheCall.prepare, Cache.delete]
    cases validateRequest (some r) <;> rfl
  | matchFirst q o =>
    simp only [CacheCall.exec, CacheCall.prepare, Cache.matchFirst, matchAll_eq]
    cases validateRequest q with
    | error e => rfl
    | ok u =>
      cases hread : readCacheFullStorage P d with
      | error e => simp [LockedCall.exec, hread, bind, Except.bind, Except.map]
      | ok list => cases hl : queryAll q o list <;> simp [LockedCall.exec, hread, hl, bind, Except.bind, Except.map]
  | matchAll q o =>
    simp only [CacheCall.exec, CacheCall.prepare, matchAll_eq]
    cases validateRequest q with
    | error e => rfl
    | ok u => cases hread : readCacheFullStorage P d <;> simp [LockedCall.exec, hread, bind, Except.bind, Except.map]
  | keys q o =>
    cases q with
    | none => rfl
    | some r =>
      simp only [CacheCall.exec, CacheCall.prepare, Cache.keys]
      cases hread : readCacheFullStorage P d with
      | error e => simp [LockedCall.exec, hread, bind, Except.bind, Except.map]
      | ok list => cases hl : queryCache r o list <;> simp [LockedCall.exec, hread, hl, bind, Except.bind, Except.map]

/-! ## Their steps -/

structure CacheFiles where
  index : Option (File CachePage) := none
  objects : Text → Option (File CacheObjectPage) := fun _ => none
  /-- inodes made so far -/
  made : Nat := 0

def CacheFiles.disk (f : CacheFiles) : Disk where
  index := f.index.map File.content
  objects key := (f.objects key).map File.content

inductive CallPhase (P : Platform) where
  | readingIndex (k : LockedCall P) (opened : Opened CachePage)
  | readingObject (use : StorageUse P) (item : CachedEntry) (opened : Opened CacheObjectPage) (rest : List CachedEntry)
      (storage : List (Entry P))
  | writingIndex (inode : Nat) (storage : List (Entry P))
  | writingObjects (inodes : List Nat)
  /-- on the way out, the resource not yet released -/
  | finished (value : Outcome P)

/-- `writeCachePage` -/
def createIndex (storage : List (Entry P)) (f : CacheFiles) : CallPhase P × CacheFiles :=
  (.writingIndex f.made storage,
    { f with index := some { inode := f.made, content := { entries := storage.map (Entry.item hash) }, complete := false }
             made := f.made + 1 })

def createObject (e : Entry P) (f : CacheFiles) : CacheFiles :=
  { f with objects := Function.update f.objects (e.path hash) (some { inode := f.made, content := e.objectPage, complete := false })
           made := f.made + 1 }

/-- `writeCacheObjectPages`: a new file for each entry, and the inodes still to be filled. -/
def createObjects : List (Entry P) → CacheFiles → List Nat × CacheFiles
  | [], f => ([], f)
  | e :: storage, f =>
    let created := createObjects storage (createObject hash e f)
    (f.made :: created.1, created.2)

/-- `Promise.allSettled` of the writes that are left. -/
def awaitWrites (inodes : List Nat) : CallPhase P := if inodes = [] then .finished (.ok .undefined) else .writingObjects inodes

def StorageUse.afterRead (use : StorageUse P) (storage : List (Entry P)) (f : CacheFiles) : CallPhase P × CacheFiles :=
  match use with
  | .query finish => (.finished (finish storage), f)
  | .batch operations =>
    match batchCacheOperationsAtomicSteps operations storage [] with
    | .error e => (.finished (.error e), f)
    | .ok storage => createIndex hash storage f

/-- The loop over the items that are left; the object page of the next one is opened. -/
def StorageUse.next (use : StorageUse P) (items : List CachedEntry) (storage : List (Entry P)) (f : CacheFiles) :
    CallPhase P × CacheFiles :=
  match items with
  | [] => use.afterRead hash storage f
  | item :: rest =>
    match Request.new P item.url item.reqMethod item.reqHeaders with
    | .error e => (.finished (.error e), f)
    | .ok _ => (.readingObject use item (Opened.of (f.objects item.cacheObjectFilename)) rest storage, f)

def LockedCall.afterIndex (k : LockedCall P) (page : Option CachePage) (f : CacheFiles) : CallPhase P × CacheFiles :=
  match k with
  | .listCacheKeys => (.finished ((Cache.listCacheKeys P ((page.map CachePage.entries).getD [])).map .requests), f)
  | .withStorage use => use.next hash ((page.map CachePage.entries).getD []) [] f

def CacheCall.enter (c : CacheCall P) (f : CacheFiles) : CallPhase P × CacheFiles :=
  match c.prepare with
  | .error e => (.finished (.error e), f)
  | .ok k => (.readingIndex k (Opened.of f.index), f)

inductive CacheIo where
  /-- a read has come to its end; `torn` is what it made of a file that was being written -/
  | indexRead (torn : Option CachePage)
  | objectRead (torn : Option CacheObjectPage)
  | indexWritten
  | objectWritten (inode : Nat)

def cacheIo (l : CallPhase P) (f : CacheFiles) (e : CacheIo) : Option (CallPhase P × CacheFiles) :=
  match l, e with
  | .readingIndex k o, .indexRead torn => some (k.afterIndex hash (o.read torn) f)
  | .readingObject use item o rest storage, .objectRead torn =>
    -- the turn of the loop with the page that was read
    match readItem P { objects := fun _ => o.read torn } item with
    | .error e => some (.finished (.error e), f)
    | .ok entry => some (use.next hash rest (storage ++ entry.toList) f)
  | .writingIndex inode storage, .indexWritten =>
    let created := createObjects hash storage { f with index := f.index.map (File.finish inode) }
    some (awaitWrites created.1, created.2)
  | .writingObjects inodes, .objectWritten inode =>
    if inode ∈ inodes then
      some (awaitWrites (inodes.erase inode), { f with objects := fun key => (f.objects key).map (File.finish inode) })
    else none
  | _, _ => none

def cacheTask : Task (CacheCall P) CacheFiles (CallPhase P) CacheIo (Outcome P) where
  enter := CacheCall.enter
  step := cacheIo hash
  result
    | .finished value => some value
    | _ => none

/-! ## A call on its own -/

def CacheFiles.Settled (f : CacheFiles) : Prop := Lib.Settled f.index ∧ ∀ key, Lib.Settled (f.objects key)

/-- Only the inodes of `inodes` may be half written. -/
def Filling (inodes : List Nat) (objects : Text → Option (File CacheObjectPage)) : Prop :=
  ∀ key file, objects key = some file → file.complete = true ∨ file.inode ∈ inodes

/-- Where a call that does `k` under the resource, on its own from settled files that hold `d`, can be. -/
def CallStage (k : LockedCall P) (d : Disk) (p : CallPhase P × CacheFiles) : Prop :=
  match p.1 with
  | .readingIndex k' o => k' = k ∧ p.2.Settled ∧ p.2.disk = d ∧ ∀ t, o.read t = d.index
  | .readingObject use item o rest storage => k = .withStorage use ∧ p.2.Settled ∧ p.2.disk = d ∧
      (∀ t, o.read t = d.objects item.cacheObjectFilename) ∧
      readCacheFullStorage P d = (readItems P d (item :: rest)).map (storage ++ ·)
  | .writingIndex inode storage => k.exec hash d = (.ok .undefined, writeStorage hash storage d) ∧
      p.2.index = some { inode := inode, content := { entries := storage.map (Entry.item hash) }, complete := false } ∧
      Filling [] p.2.objects ∧ p.2.disk.objects = d.objects
  | .writingObjects inodes => k.exec hash d = (.ok .undefined, p.2.disk) ∧ Lib.Settled p.2.index ∧ Filling inodes p.2.objects
  | .finished value => p.2.Settled ∧ k.exec hash d = (value, p.2.disk)

variable {hash}

variable {use : StorageUse P} {f : CacheFiles} {storage : List (Entry P)}

theorem afterStorage_stage (hf : f.Settled) (hread : readCacheFullStorage P f.disk = .ok storage) :
    CallStage hash (.withStorage use) f.disk (use.afterRead hash storage f) := by
  cases use with
  | query finish => exact ⟨hf, by simp [StorageUse.afterRead, LockedCall.exec, hread, bind, Except.bind]⟩
  | batch operations =>
    simp only [StorageUse.afterRead]
    cases hat : batchCacheOperationsAtomicSteps operations storage [] with
    | error e => exact ⟨hf, by simp [LockedCall.exec, batchCacheOperations, hread, hat, written, bind, Except.bind]⟩
    | ok storage' =>
      refine ⟨by simp [LockedCall.exec, batchCacheOperations, hread, hat, written, bind, Except.bind], rfl, ?_, rfl⟩
      exact fun key file h => Or.inl (hf.2 key file h)

theorem next_stage (hf : f.Settled) {items : List CachedEntry}
    (hread : readCacheFullStorage P f.disk = (readItems P f.disk items).map (storage ++ ·)) :
    CallStage hash (.withStorage use) f.disk (use.next hash items storage f) := by
  cases items with
  | nil =>
    have hread : readCacheFullStorage P f.disk = .ok storage := by simpa [readItems, Except.map] using hread
    exact afterStorage_stage hf hread
  | cons item rest =>
    simp only [StorageUse.next]
    cases hreq : Request.new P item.url item.reqMethod item.reqHeaders with
    | error e =>
      have hread : readCacheFullStorage P f.disk = .error e := by
        rw [hread]
        simp [readItems, readItem, hreq, bind, Except.bind, Except.map]
      refine ⟨hf, ?_⟩
      cases use <;> simp [LockedCall.exec, batchCacheOperations, hread, written, bind, Except.bind]
    | ok r => exact ⟨rfl, hf, rfl, fun t => (hf.2 _).opened t, hread⟩

variable {k : LockedCall P}

theorem afterIndex_stage (hf : f.Settled) : CallStage hash k f.disk (k.afterIndex hash f.disk.index f) := by
  cases k with
  | listCacheKeys => exact ⟨hf, rfl⟩
  | withStorage use =>
    refine next_stage hf ?_
    show readItems P f.disk f.disk.items = (readItems P f.disk f.disk.items).map ([] ++ ·)
    cases readItems P f.disk f.disk.items <;> rfl

variable {p : CallPhase P × CacheFiles}

theorem objectRead_stage {item : CachedEntry} {o : Opened CacheObjectPage} {rest : List CachedEntry}
    (hf : f.Settled) (ho : ∀ t, o.read t = f.disk.objects item.cacheObjectFilename)
    (hread : readCacheFullStorage P f.disk = (readItems P f.disk (item :: rest)).map (storage ++ ·)) {torn : Option CacheObjectPage}
    (hs : cacheIo hash (.readingObject use item o rest storage) f (.objectRead torn) = some p) :
    CallStage hash (.withStorage use) f.disk p := by
  have hitem : readItem P { objects := fun _ => o.read torn } item = readItem P f.disk item := by
    simp only [readItem, ho torn]
  simp only [cacheIo, hitem] at hs
  cases he : readItem P f.disk item with
  | error e =>
    have hread : readCacheFullStorage P f.disk = .error e := by
      rw [hread]
      simp [readItems, he, bind, Except.bind, Except.map]
    rw [he] at hs
    cases hs
    refine ⟨hf, ?_⟩
    cases use <;> simp [LockedCall.exec, batchCacheOperations, hread, written, bind, Except.bind]
  | ok entry =>
    rw [he] at hs
    cases hs
    refine next_stage hf ?_
    rw [hread]
    cases hrest : readItems P f.disk rest <;> simp [readItems, he, hrest, bind, Except.bind, Except.map]

/-! ### Writing -/

theorem createObjects_index (storage : List (Entry P)) (f : CacheFiles) : (createObjects hash storage f).2.index = f.index := by
  induction storage generalizing f with
  | nil => rfl
  | cons e storage ih => exact ih _

variable (hash) in
theorem createObjects_contents (storage : List (Entry P)) (f : CacheFiles) :
    (createObjects hash storage f).2.disk.objects = writeObjects hash storage f.disk.objects := by
  induction storage generalizing f with
  | nil => rfl
  | cons e storage ih =>
    simp only [createObjects, writeObjects, ih]
    congr 1
    funext key
    by_cases hk : key = e.path hash
    · subst hk; simp [createObject, CacheFiles.disk]
    · simp [createObject, CacheFiles.disk, hk]

variable {inodes : List Nat}

theorem createObjects_filling (storage : List (Entry P)) (h : Filling inodes f.objects) :
    Filling (inodes ++ (createObjects hash storage f).1) (createObjects hash storage f).2.objects := by
  induction storage generalizing f inodes with
  | nil => simpa [createObjects] using h
  | cons e storage ih =>
    have hone : Filling (inodes ++ [f.made]) (createObject hash e f).objects := by
      intro key file hfile
      by_cases hk : key = e.path hash
      · subst hk
        simp only [createObject, Function.update_self] at hfile
        cases hfile
        exact Or.inr (by simp)
      · simp only [createObject, Function.update_of_ne hk] at hfile
        exact (h key file hfile).imp_right (mem_append_left _)
    simpa [createObjects] using ih hone

variable {objects : Text → Option (File CacheObjectPage)}

theorem filling_nil (h : Filling [] objects) : ∀ key, Lib.Settled (objects key) :=
  fun key file hfile => (h key file hfile).resolve_right not_mem_nil

theorem filling_finish (h : Filling inodes objects) (inode : Nat) :
    Filling (inodes.erase inode) fun key => (objects key).map (File.finish inode) := by
  intro key file hfile
  obtain ⟨g, hg, rfl⟩ := map_eq_some_iff.mp hfile
  by_cases hi : g.inode = inode
  · simp [File.finish, hi]
  · rcases h key g hg with hc | hm
    · exact Or.inl (by simpa [File.finish, hi] using hc)
    · exact Or.inr (by simpa [File.finish, hi] using (mem_erase_of_ne hi).mpr hm)

theorem finish_content {α : Type} (inode : Nat) (f : Option (File α)) : (f.map (File.finish inode)).map File.content = f.map File.content := by
  cases f with
  | none => rfl
  | some g =>
    simp only [map_some, File.finish]
    split <;> rfl

variable {d : Disk}

theorem awaitWrites_stage
    (hexec : k.exec hash d = (.ok .undefined, f.disk)) (hindex : Lib.Settled f.index) (hobjects : Filling inodes f.objects) :
    CallStage hash k d (awaitWrites inodes, f) := by
  by_cases hi : inodes = []
  · subst hi
    exact ⟨⟨hindex, filling_nil hobjects⟩, hexec⟩
  · rw [awaitWrites, if_neg hi]
    exact ⟨hexec, hindex, hobjects⟩

variable {inode : Nat}

theorem indexWritten_stage (h : CallStage hash k d (.writingIndex inode storage, f))
    (hs : cacheIo hash (.writingIndex inode storage) f .indexWritten = some p) : CallStage hash k d p := by
  obtain ⟨hexec, hindex, hfill, hobjects⟩ := h
  have hindex : f.index = some { inode := inode, content := { entries := storage.map (Entry.item hash) }, complete := false } := hindex
  cases hs
  refine awaitWrites_stage ?_ ?_ (@createObjects_filling P hash _ [] storage hfill)
  · rw [hexec]
    have hcontents := createObjects_contents hash storage { f with index := f.index.map (File.finish inode) }
    have hobjects' : ({ f with index := f.index.map (File.finish inode) } : CacheFiles).disk.objects = d.objects := hobjects
    rw [hobjects'] at hcontents
    simp only [writeStorage, ← hcontents]
    simp [CacheFiles.disk, createObjects_index, hindex, File.finish]
  · rw [createObjects_index]
    intro g hg
    simp only [hindex, map_some, File.finish, if_true, Option.some.injEq] at hg
    rw [← hg]

theorem objectWritten_stage (h : CallStage hash k d (.writingObjects inodes, f))
    (hs : cacheIo hash (.writingObjects inodes) f (.objectWritten inode) = some p) : CallStage hash k d p := by
  obtain ⟨hexec, hindex, hfill⟩ := h
  simp only [cacheIo] at hs
  split at hs
  · cases hs
    refine awaitWrites_stage ?_ hindex (filling_finish hfill inode)
    rw [hexec]
    simp only [CacheFiles.disk, finish_content]
  · cases hs

theorem cacheIo_stage (k : LockedCall P) (d : Disk) (p : CallPhase P × CacheFiles) (e : CacheIo) (p' : CallPhase P × CacheFiles)
    (h : CallStage hash k d p) (hs : soloStep (cacheTask hash) p e = some p') : CallStage hash k d p' := by
  obtain ⟨l, f⟩ := p
  have hs : cacheIo hash l f e = some p' := hs
  cases l with
  | readingIndex k' o =>
    obtain ⟨rfl, hf, rfl, ho⟩ := h
    cases e with
    | indexRead torn =>
      simp only [cacheIo, ho torn, Option.some.injEq] at hs
      subst hs
      exact afterIndex_stage hf
    | _ => cases hs
  | readingObject use item o rest storage =>
    obtain ⟨rfl, hf, rfl, ho, hread⟩ := h
    cases e with
    | objectRead torn => exact objectRead_stage hf ho hread hs
    | _ => cases hs
  | writingIndex inode storage =>
    cases e with
    | indexWritten => exact indexWritten_stage h hs
    | _ => cases hs
  | writingObjects inodes =>
    cases e with
    | objectWritten inode => exact objectWritten_stage h hs
    | _ => cases hs
  | finished value => cases e <;> cases hs

theorem alone_cache (c : CacheCall P) (f : CacheFiles) (value : Outcome P) (t : CacheFiles) (hf : f.Settled)
    (ha : Alone (cacheTask hash) c f value t) : c.exec hash f.disk = (value, t.disk) ∧ t.Settled := by
  obtain ⟨es, l, hrun, hvalue⟩ := ha
  rw [exec_prepare]
  cases hc : c.prepare with
  | error e =>
    have henter : (cacheTask hash).enter c f = (.finished (.error e), f) := by simp [cacheTask, CacheCall.enter, hc]
    rw [solo, henter] at hrun
    cases es with
    | nil =>
      cases hrun
      cases hvalue
      exact ⟨rfl, hf⟩
    | cons x es =>
      obtain ⟨_, hx, -⟩ := run_cons.mp hrun
      cases x <;> cases hx
  | ok k =>
    have henter : (cacheTask hash).enter c f = (.readingIndex k (Opened.of f.index), f) := by simp [cacheTask, CacheCall.enter, hc]
    rw [solo, henter] at hrun
    have hstart : CallStage hash k f.disk (.readingIndex k (Opened.of f.index), f) := ⟨rfl, hf, rfl, hf.1.opened⟩
    have hstage : CallStage hash k f.disk (l, t) :=
      run_inv (Q := fun _ _ => True) (fun p e p' h _ hs => cacheIo_stage k f.disk p e p' h hs) hstart (along_true _ _) hrun
    cases l with
    | finished v =>
      obtain rfl : v = value := by simpa [cacheTask] using hvalue
      exact ⟨hstage.2, hstage.1⟩
    | _ => cases hvalue

def Reading : CallPhase P → Prop
  | .readingIndex (.withStorage (.batch _)) _ => False
  | .readingObject (.batch _) _ _ _ _ => False
  | .writingIndex _ _ => False
  | .writingObjects _ => False
  | _ => True

variable (hash) in
theorem next_reading (finish : List (Entry P) → Outcome P) (items : List CachedEntry) (storage : List (Entry P)) (f : CacheFiles) :
    Reading ((StorageUse.query finish).next hash items storage f).1 ∧ ((StorageUse.query finish).next hash items storage f).2 = f := by
  cases items with
  | nil => exact ⟨trivial, rfl⟩
  | cons item rest =>
    simp only [StorageUse.next]
    cases Request.new P item.url item.reqMethod item.reqHeaders <;> exact ⟨trivial, rfl⟩

variable {e : CacheIo}

theorem cacheIo_reading {l l' : CallPhase P} {f' : CacheFiles} (h : Reading l) (hs : cacheIo hash l f e = some (l', f')) :
    Reading l' ∧ f' = f := by
  cases l with
  | readingIndex k o =>
    cases e with
    | indexRead torn =>
      simp only [cacheIo, Option.some.injEq] at hs
      cases k with
      | listCacheKeys => cases hs; exact ⟨trivial, rfl⟩
      | withStorage use =>
        cases use with
        | batch operations => exact h.elim
        | query finish =>
          have := next_reading hash finish (((o.read torn).map CachePage.entries).getD []) [] f
          rw [LockedCall.afterIndex] at hs
          rwa [hs] at this
    | _ => cases hs
  | readingObject use item o rest storage =>
    cases use with
    | batch operations => exact h.elim
    | query finish =>
      cases e with
      | objectRead torn =>
        simp only [cacheIo] at hs
        split at hs
        · cases hs; exact ⟨trivial, rfl⟩
        · rename_i entry _
          have := next_reading hash finish rest (storage ++ entry.toList) f
          rwa [Option.some.inj hs] at this
      | _ => cases hs
  | writingIndex inode storage => exact h.elim
  | writingObjects inodes => exact h.elim
  | finished value => cases e <;> cases hs

theorem enter_reading {c : CacheCall P} (hc : c.readOnly = true) (f : CacheFiles) : Reading (c.enter f).1 ∧ (c.enter f).2 = f := by
  simp only [CacheCall.enter]
  cases c with
  | put r p => cases hc
  | delete r o => cases hc
  | matchFirst q o =>
    simp only [CacheCall.prepare]
    cases validateRequest q <;> exact ⟨trivial, rfl⟩
  | matchAll q o =>
    simp only [CacheCall.prepare]
    cases validateRequest q <;> exact ⟨trivial, rfl⟩
  | keys q o => cases q <;> exact ⟨trivial, rfl⟩

theorem cache_readsOnly (c : CacheCall P) (hc : c.readOnly = true) : ReadsOnly (cacheTask hash) c := by
  intro f es l t hrun
  have h : Reading l ∧ t = f :=
    run_inv (I := fun p : CallPhase P × CacheFiles => Reading p.1 ∧ p.2 = f) (Q := fun _ _ => True)
      (fun p e p' h _ hs => by
        obtain ⟨l', f'⟩ := p'
        obtain ⟨hr, hp⟩ := cacheIo_reading h.1 hs
        exact ⟨hr, hp.trans h.2⟩)
      (enter_reading hc f) (along_true _ _) hrun
  exact h.2

/-! ## Workers and the resource -/

section
variable {ι : Type} [DecidableEq ι] (hash) (call : ι → CacheCall P)

structure CacheWorkers (ι : Type) (P : Platform) where
  /-- who has been granted '[CachePage]<name>' and has not released it -/
  lock : List ι := []
  /-- the calls that rejected before they asked for it -/
  rejected : List ι := []
  calls : Sys ι CacheFiles (CallPhase P) (Outcome P)

inductive CacheEv (ι : Type) where
  | reject (i : ι)
  | grant (i : ι)
  /-- the call goes on after `acquireResource` -/
  | start (i : ι)
  | io (i : ι) (e : CacheIo)
  | release (i : ι)

/-- The agent grants the resource to one call alone or to calls that share it. -/
def Grants (lock : List ι) (i : ι) : Prop :=
  if (call i).readOnly then ∀ j ∈ lock, (call j).readOnly = true else lock = []

instance (lock : List ι) (i : ι) : Decidable (Grants call lock i) :=
  inferInstanceAs (Decidable (if (call i).readOnly then ∀ j ∈ lock, (call j).readOnly = true else lock = []))

def cacheWorkerStep (s : CacheWorkers ι P) : CacheEv ι → Option (CacheWorkers ι P)
  | .reject i =>
    match (call i).prepare with
    | .error _ => if i ∈ s.rejected then none else some { s with rejected := s.rejected ++ [i] }
    | .ok _ => none
  | .grant i =>
    match (call i).prepare, s.calls.threads i with
    | .ok _, .waiting => if i ∉ s.lock ∧ Grants call s.lock i then some { s with lock := i :: s.lock } else none
    | _, _ => none
  | .start i => if i ∈ s.lock then (sysStep (cacheTask hash) call s.calls (.enter i)).map fun c => { s with calls := c } else none
  | .io i e => (sysStep (cacheTask hash) call s.calls (.work i e)).map fun c => { s with calls := c }
  | .release i =>
    if i ∈ s.lock then
      (sysStep (cacheTask hash) call s.calls (.leave i)).map fun c => { s with calls := c, lock := s.lock.erase i }
    else none

structure LockOk (s : CacheWorkers ι P) : Prop where
  once : s.lock.Nodup
  apart : (∀ i ∈ s.lock, (call i).readOnly = true) ∨ ∃ i, s.lock = [i]
  prepared : ∀ i ∈ s.lock, ∃ k, (call i).prepare = .ok k
  consistent : Consistent s.calls
  /-- the resource is held from before the first step to after the last -/
  covers : ∀ i ∈ s.calls.holders, i ∈ s.lock
  started : ∀ i, s.calls.threads i ≠ .waiting → ∃ k, (call i).prepare = .ok k
  rejectedOnce : s.rejected.Nodup
  failed : ∀ i ∈ s.rejected, ∃ e, (call i).prepare = .error e

/-- The value call `i` has settled with. -/
def SettledWith (s : CacheWorkers ι P) (i : ι) (value : Outcome P) : Prop :=
  s.calls.threads i = .done value ∨ i ∈ s.rejected ∧ ∃ e, (call i).prepare = .error e ∧ value = .error e

variable {hash call} {s s' : CacheWorkers ι P} {i : ι}

omit [DecidableEq ι] in
theorem lockOk_grant (h : LockOk call s) (hk : (call i).prepare = .ok k) (hi : i ∉ s.lock) (hg : Grants call s.lock i) :
    LockOk call { s with lock := i :: s.lock } := by
  refine ⟨nodup_cons.mpr ⟨hi, h.once⟩, ?_, ?_, h.consistent, fun j hj => mem_cons_of_mem _ (h.covers j hj), h.started,
    h.rejectedOnce, h.failed⟩
  · simp only [Grants] at hg
    split at hg
    · rename_i hr
      left
      intro j hj
      rcases mem_cons.mp hj with rfl | hj
      · exact hr
      · exact hg j hj
    · exact Or.inr ⟨i, by simp [hg]⟩
  · intro j hj
    rcases mem_cons.mp hj with rfl | hj
    · exact ⟨k, hk⟩
    · exact h.prepared j hj

variable {c : Sys ι CacheFiles (CallPhase P) (Outcome P)}

theorem lockOk_start (h : LockOk call s) (hi : i ∈ s.lock)
    (hc : sysStep (cacheTask hash) call s.calls (.enter i) = some c) : LockOk call { s with calls := c } := by
  obtain ⟨hw, l, u, -, rfl⟩ := enter_ok hc
  refine ⟨h.once, h.apart, h.prepared, h.consistent.enter hw l u, ?_, ?_, h.rejectedOnce, h.failed⟩
  · intro j hj
    rcases mem_cons.mp hj with rfl | hj
    · exact hi
    · exact h.covers j hj
  · intro j hj
    by_cases he : j = i
    · subst he; exact h.prepared j hi
    · exact h.started j (by simpa [he] using hj)

theorem lockOk_io (h : LockOk call s)
    (hc : sysStep (cacheTask hash) call s.calls (.work i e) = some c) : LockOk call { s with calls := c } := by
  obtain ⟨l, l', u, hl, -, rfl⟩ := work_ok hc
  refine ⟨h.once, h.apart, h.prepared, h.consistent.work hl l' u, h.covers, fun j hj => ?_, h.rejectedOnce, h.failed⟩
  by_cases he : j = i
  · subst he; exact h.started j (by simp [hl])
  · exact h.started j (by simpa [he] using hj)

theorem lockOk_release (h : LockOk call s) (hi : i ∈ s.lock)
    (hc : sysStep (cacheTask hash) call s.calls (.leave i) = some c) : LockOk call { s with calls := c, lock := s.lock.erase i } := by
  obtain ⟨l, b, hl, -, rfl⟩ := leave_ok hc
  refine ⟨h.once.erase i, Or.inl ?_, fun j hj => h.prepared j (mem_of_mem_erase hj), h.consistent.leave b, ?_, ?_,
    h.rejectedOnce, h.failed⟩
  · intro j hj
    obtain ⟨hne, hj⟩ := h.once.mem_erase_iff.mp hj
    rcases h.apart with ha | ⟨x, hx⟩
    · exact ha j hj
    · rw [hx] at hi hj
      exact absurd ((mem_singleton.mp hj).trans (mem_singleton.mp hi).symm) hne
  · intro j hj
    obtain ⟨hne, hj⟩ := h.consistent.once.mem_erase_iff.mp hj
    exact h.once.mem_erase_iff.mpr ⟨hne, h.covers j hj⟩
  · intro j hj
    by_cases he : j = i
    · subst he; exact h.started j (by simp [hl])
    · exact h.started j (by simpa [he] using hj)

theorem lockOk_step (e : CacheEv ι) (h : LockOk call s) (hs : cacheWorkerStep hash call s e = some s') : LockOk call s' := by
  cases e with simp only [cacheWorkerStep] at hs
  | reject i =>
    split at hs
    · next err hp =>
      split at hs
      · cases hs
      · next hi =>
        cases hs
        refine ⟨h.once, h.apart, h.prepared, h.consistent, h.covers, h.started, ?_, fun j hj => ?_⟩
        · exact h.rejectedOnce.append (nodup_singleton i) (by simpa using hi)
        · rcases mem_append.mp hj with hj | hj
          · exact h.failed j hj
          · rw [mem_singleton.mp hj]; exact ⟨err, hp⟩
    · cases hs
  | grant i =>
    split at hs
    · next k hk _ =>
      split at hs
      · next hg => cases hs; exact lockOk_grant h hk hg.1 hg.2
      · cases hs
    · cases hs
  | start i =>
    split at hs
    · next hi =>
      obtain ⟨c, hc, rfl⟩ := map_eq_some_iff.mp hs
      exact lockOk_start h hi hc
    · cases hs
  | io i e =>
    obtain ⟨c, hc, rfl⟩ := map_eq_some_iff.mp hs
    exact lockOk_io h hc
  | release i =>
    split at hs
    · next hi =>
      obtain ⟨c, hc, rfl⟩ := map_eq_some_iff.mp hs
      exact lockOk_release h hi hc
    · cases hs

omit [DecidableEq ι] in
/-- Who has the resource may go on: a call that writes is alone, one that reads is among readers. -/
theorem lock_admits (h : LockOk call s) (hi : i ∈ s.lock) (hw : s.calls.threads i = .waiting) :
    Admits call CacheCall.readOnly s.calls (.enter i : SysEv ι CacheIo) := by
  have hni : i ∉ s.calls.holders := by
    intro hm
    obtain ⟨l, hl⟩ := (h.consistent.holds i).mp hm
    rw [hw] at hl; cases hl
  simp only [Admits]
  rcases h.apart with ha | ⟨x, hx⟩
  · rw [if_pos (ha i hi)]
    exact fun j hj => ha j (h.covers j hj)
  · have hempty : s.calls.holders = [] := by
      refine eq_nil_iff_forall_not_mem.mpr fun j hj => ?_
      have hj' := h.covers j hj
      rw [hx] at hi hj'
      rw [mem_singleton.mp hj', ← mem_singleton.mp hi] at hj
      exact hni hj
    split
    · simp [hempty]
    · exact hempty

theorem cacheWorkerStep_simulates (s : CacheWorkers ι P) (e : CacheEv ι) (s' : CacheWorkers ι P) (h : LockOk call s)
    (hs : cacheWorkerStep hash call s e = some s') :
    s'.calls = s.calls ∨ ∃ d, sysStep (cacheTask hash) call s.calls d = some s'.calls ∧ Admits call CacheCall.readOnly s.calls d := by
  cases e with simp only [cacheWorkerStep] at hs
  | reject i =>
    left
    split at hs
    · split at hs
      · cases hs
      · cases hs; rfl
    · cases hs
  | grant i =>
    left
    split at hs
    · split at hs
      · cases hs; rfl
      · cases hs
    · cases hs
  | start i =>
    right
    split at hs
    · next hi =>
      obtain ⟨c, hc, rfl⟩ := map_eq_some_iff.mp hs
      exact ⟨.enter i, hc, lock_admits h hi (enter_ok hc).1⟩
    · cases hs
  | io i e =>
    right
    obtain ⟨c, hc, rfl⟩ := map_eq_some_iff.mp hs
    exact ⟨.work i e, hc, trivial⟩
  | release i =>
    right
    split at hs
    · obtain ⟨c, hc, rfl⟩ := map_eq_some_iff.mp hs
      exact ⟨.leave i, hc, trivial⟩
    · cases hs

omit [DecidableEq ι] in
theorem rejected_waiting (h : LockOk call s) (hi : i ∈ s.rejected) : s.calls.threads i = .waiting := by
  obtain ⟨e, he⟩ := h.failed i hi
  by_contra hne
  obtain ⟨k, hk⟩ := h.started i hne
  rw [he] at hk; cases hk

omit [DecidableEq ι] in
theorem settled_notInside (h : LockOk call s) {value : Outcome P} (hv : SettledWith call s i value) (l : CallPhase P) :
    s.calls.threads i ≠ .inside l := by
  intro hl
  rcases hv with hv | ⟨hi, -⟩
  · rw [hl] at hv; cases hv
  · rw [rejected_waiting h hi] at hl; cases hl

omit [DecidableEq ι] in
variable (hash) in
theorem rejected_exec (h : LockOk call s) (hi : i ∈ s.rejected) (d : Disk) :
    ∃ e, (call i).prepare = .error e ∧ (call i).exec hash d = (.error e, d) := by
  obtain ⟨e, he⟩ := h.failed i hi
  exact ⟨e, he, by rw [exec_prepare, he]⟩

/-- However the steps of the calls interleave, once all have settled their values and the files
    they leave are those of making the calls one after the other. -/
theorem cache_serializable {f : CacheFiles} (hf : f.Settled) {es : List (CacheEv ι)} {t : CacheWorkers ι P}
    (hr : run (cacheWorkerStep hash call) { calls := { shared := f } } es = some t) (hdone : ∀ i, ∃ value, SettledWith call t i value) :
    ∃ order : List (ι × Outcome P), (order.map Prod.fst).Nodup ∧ (∀ i, i ∈ order.map Prod.fst) ∧
      (∀ x ∈ order, SettledWith call t x.1 x.2) ∧
      replay (CacheCall.exec hash) f.disk (order.map fun x => call x.1) = (order.map Prod.snd, t.calls.shared.disk) := by
  have hstart : LockOk call ({ calls := { shared := f } } : CacheWorkers ι P) :=
    ⟨nodup_nil, Or.inl nofun, nofun, ⟨by simp, nodup_nil⟩, nofun, by simp, nodup_nil, nofun⟩
  have hlock : LockOk call t :=
    run_inv (Q := fun _ _ => True) (fun s e s' h _ hs => lockOk_step e h hs) hstart (along_true _ _) hr
  obtain ⟨ds, hds, hal⟩ := run_simulates CacheWorkers.calls (Q := fun _ _ => True) (fun s e s' h _ hs => lockOk_step e h hs)
    (fun s e s' h _ hs => cacheWorkerStep_simulates s e s' h hs) hstart (along_true _ _) hr
  have hout : ∀ i l, t.calls.threads i ≠ .inside l := by
    intro i l
    obtain ⟨value, hv⟩ := hdone i
    exact settled_notInside hlock hv l
  obtain ⟨o, hnd, hvalues, hin⟩ := serializes CacheCall.readOnly cache_readsOnly hds hal hout
  obtain ⟨hreplay, -⟩ := inOrder_replay alone_cache hf hin
  -- those that were rejected early come first; they leave the files alone
  refine ⟨t.rejected.map (fun i => (i, ((call i).exec hash f.disk).1)) ++ o, ?_, fun i => ?_, fun x hx => ?_, ?_⟩
  · have hfst : (t.rejected.map fun i => (i, ((call i).exec hash f.disk).1)).map Prod.fst = t.rejected := by
      rw [List.map_map]
      exact List.map_id _
    rw [map_append, hfst]
    refine hlock.rejectedOnce.append hnd fun i hi ho => ?_
    obtain ⟨⟨j, b⟩, hb, rfl⟩ := List.mem_map.mp ho
    have hdone := (hvalues j b).mp hb
    rw [rejected_waiting hlock hi] at hdone
    cases hdone
  · rw [map_append, mem_append]
    obtain ⟨value, hv | ⟨hi, -⟩⟩ := hdone i
    · exact Or.inr (List.mem_map.mpr ⟨(i, value), (hvalues i value).mpr hv, rfl⟩)
    · exact Or.inl (by simpa using hi)
  · rcases mem_append.mp hx with hx | hx
    · obtain ⟨i, hi, rfl⟩ := List.mem_map.mp hx
      obtain ⟨e, he, hx⟩ := rejected_exec hash hlock hi f.disk
      exact Or.inr ⟨hi, e, he, by rw [hx]⟩
    · exact Or.inl ((hvalues x.1 x.2).mp hx)
  · rw [map_append, replay_unchanged, hreplay, map_append]
    intro x hx
    obtain ⟨i, hi, rfl⟩ := List.mem_map.mp hx
    obtain ⟨e, -, hx⟩ := rejected_exec hash hlock hi f.disk
    rw [hx]

end

/-! ## A put and a query -/

def putAndMatch : Fin 3 → CacheCall textPlatform
  | 0 => .put (getRequest "http://a/".toList) (plainResponse 200 [1])
  | 1 => .matchAll none none
  | 2 => .put (getRequest "ftp://a/".toList) (plainResponse 200 [1])

/-- The query asks for the resource while the put has it; the third call is rejected on the way. -/
def putAndMatchRun : List (CacheEv (Fin 3)) :=
  [.grant 0, .start 0, .io 0 (.indexRead none), .reject 2, .io 0 .indexWritten, .io 0 (.objectWritten 1), .release 0,
    .grant 1, .start 1, .io 1 (.indexRead none), .io 1 (.objectRead none), .release 1]

theorem cache_serializable_three :
    ∃ (t : CacheWorkers (Fin 3) textPlatform) (order : List (Fin 3 × Outcome textPlatform)),
      run (cacheWorkerStep id putAndMatch) { calls := { shared := {} } } putAndMatchRun = some t ∧ (∀ i, i ∈ order.map Prod.fst) ∧
      replay (CacheCall.exec id) {} (order.map fun x => putAndMatch x.1) = (order.map Prod.snd, t.calls.shared.disk) := by
  have hsettled : ({} : CacheFiles).Settled := ⟨nofun, nofun⟩
  obtain ⟨order, -, hall, -, hreplay⟩ := @cache_serializable textPlatform id (Fin 3) _ putAndMatch {} hsettled putAndMatchRun _ rfl
    fun i => by
      fin_cases i
      · exact ⟨_, Or.inl rfl⟩
      · exact ⟨_, Or.inl rfl⟩
      · exact ⟨_, Or.inr ⟨by decide, _, rfl, rfl⟩⟩
  exact ⟨_, order, rfl, hall, hreplay⟩

end Aworker.Cache
