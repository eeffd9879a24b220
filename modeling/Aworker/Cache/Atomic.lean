/-
  Aworker.Cache.Atomic — a batch as it runs (lib/cache.js: `batchCacheOperations`,
  `batchCacheOperationsAtomicSteps`).

  The operations work on one array, `storage`, and splice and push in place; one of them may
  throw when earlier ones have changed the array already. Nothing is written before the last
  operation has been accepted, and `finally` releases the lock.

  The model runs with its effects: `World` has the files, the lock, the two arrays and a trace
  of what was asked of the agent and the binding. `Match` has the same steps as functions of
  lists (`atomicStep`); here they are loops over indices, and `step_exec` says that they
  agree, and that a throw touches nothing but the arrays.

  - `unacceptable_throws`: a batch with an operation of another type, a delete with a response, or
    a put without a response, for another protocol, another method or with options.
  Also `batch_atomic`, `batch_unstored`, `batch_unread`.
-/

import Mathlib
import Aworker.Lib.Effects
import Aworker.Cache.PutMatch

namespace Aworker.Cache.InPlace

open Aworker.Lib Aworker.Fetch List

variable (P : Platform)

/-! ## A batch and its effects -/

inductive Effect where
  | acquireResource
  | readCacheFullStorage
  | writeCachePage
  | writeCacheObjectPage (file : Text)
  | release
  deriving DecidableEq

structure World where
  disk : Disk
  /-- the call holds '[CachePage]name' -/
  locked : Bool := false
  storage : List (Entry P) := []
  addedItems : List (Entry P) := []
  trace : List Effect := []

structure RawOperation where
  type : Text
  request : Request P
  response : Option Response := none
  options : Option CacheQueryOptions := none

/-- With `responseArrayBufferStoreKey` on the response of a put. -/
structure StoredOperation where
  type : Text
  request : Request P
  response : Option (Response × Bytes) := none
  options : Option CacheQueryOptions := none

variable {P}

def deleteType : Text := "delete".toList

def putType : Text := "put".toList

def batchOperationTypes : List Text := [deleteType, putType]

/-- One turn of the loop before the lock. -/
def store (op : RawOperation P) : Except JsError (StoredOperation P) :=
  match op.response with
  | none => .ok { type := op.type, request := op.request, options := op.options }
  | some response =>
    if op.type = putType then
      match response.body.arrayBuffer with
      | .error e => .error e
      | .ok buffer => .ok { type := op.type, request := op.request, response := some (response, buffer), options := op.options }
    else .ok { type := op.type, request := op.request, response := some (response, []), options := op.options }

abbrev Batch (P : Platform) (α : Type) : Type := Eff JsError (World P) α

def acquireResource : Batch P Unit := modify fun w => { w with locked := true, trace := w.trace ++ [.acquireResource] }

def release : Batch P Unit := modify fun w => { w with locked := false, trace := w.trace ++ [.release] }

def readStorage : Batch P Unit := do
  modify fun w => { w with trace := w.trace ++ [.readCacheFullStorage] }
  let w ← getThe (World P)
  let storage ← ofExcept (readCacheFullStorage P w.disk)
  modify fun w => { w with storage }

/-- `for (let idx = storage.length - 1; idx !== -1; idx--)`, with `idx + 1` for `idx` -/
def spliceMatched (q : Request P) (options : Option CacheQueryOptions) : Nat → Batch P Unit
  | 0 => pure ()
  | idx + 1 => do
    let w ← getThe (World P)
    match w.storage[idx]? with
    | none => pure ()
    | some e => do
      let found ← ofExcept (matchEntry q options e)
      if found then modify fun w => { w with storage := w.storage.eraseIdx idx }
      spliceMatched q options idx

/-- The put branch, for a response that is there. -/
def putStep (op : StoredOperation P) (response : Response) (store : Bytes) (length : Nat) : Batch P Unit := do
  let url ← ofExcept (newUrl P op.request.url)
  throwIf (P.url.protocol url ∉ allowedProtocols)
    (.typeError ("Unsupported protocol '".toList ++ P.url.protocol url ++ "' in cache".toList))
  throwIf (op.request.method ≠ Fetch.get) (.typeError "Unable to cache requests other than GET method".toList)
  throwIf op.options.isSome (.typeError "Invalid cache put operation".toList)
  spliceMatched op.request op.options length
  let item : Entry P := { request := op.request, response, store }
  modify fun w => { w with storage := w.storage ++ [item], addedItems := w.addedItems ++ [item] }

def step (op : StoredOperation P) : Batch P Unit := do
  throwIf (op.type ∉ batchOperationTypes) (.typeError "Invalid cache operation type".toList)
  throwIf (op.type = deleteType ∧ op.response.isSome) (.typeError "Invalid cache delete operation".toList)
  let w ← getThe (World P)
  let found ← ofExcept (queryCache op.request op.options w.addedItems)
  throwIf (found.length ≠ 0) .invalidState
  if op.type = deleteType then spliceMatched op.request op.options w.storage.length
  else if op.type = putType then
    match op.response with
    | none => throw (.typeError "Cache put operation with nil response".toList)
    | some (response, store) => putStep op response store w.storage.length
  else pure ()

def batchCacheOperationsAtomicSteps (operations : List (StoredOperation P)) : Batch P Unit := do
  modify fun w => { w with addedItems := [] }
  operations.forM step

variable (hash : Text → Text)

def writeObjectPage (e : Entry P) : Batch P Unit := modify fun w =>
  { w with
    disk := { w.disk with objects := Function.update w.disk.objects (e.path hash) (some e.objectPage) }
    trace := w.trace ++ [.writeCacheObjectPage (e.path hash)] }

/-- `writeCachePage`, then `writeCacheObjectPages`, whose files are opened in this order. -/
def writePages : Batch P Unit := do
  modify fun w =>
    { w with
      disk := { w.disk with index := some { entries := w.storage.map (Entry.item hash) } }
      trace := w.trace ++ [.writeCachePage] }
  let w ← getThe (World P)
  w.storage.forM (writeObjectPage hash)

def batchCacheOperations (operations : List (RawOperation P)) : Batch P Unit := do
  let operations ← ofExcept (operations.mapM store)
  acquireResource
  try
    readStorage
    batchCacheOperationsAtomicSteps operations
    writePages hash
  finally
    release

/-! ## The steps as functions of lists -/

def opType? (type : Text) : Option OpType :=
  if type = deleteType then some .delete else if type = putType then some .put else none

/-- `atomicStep`, after the check of the type. -/
def rawStep (op : StoredOperation P) (storage addedItems : List (Entry P)) : Except JsError (List (Entry P) × List (Entry P)) :=
  match opType? op.type with
  | none => typeError "Invalid cache operation type"
  | some type => atomicStep { type, request := op.request, response := op.response, options := op.options } storage addedItems

def rawSteps : List (StoredOperation P) → List (Entry P) → List (Entry P) → Except JsError (List (Entry P))
  | [], storage, _ => .ok storage
  | op :: operations, storage, addedItems => do
    let next ← rawStep op storage addedItems
    rawSteps operations next.1 next.2

theorem removeMatched_snoc (q : Request P) (o : Option CacheQueryOptions) (storage : List (Entry P)) (e : Entry P) :
    removeMatched q o (storage ++ [e]) = (matchEntry q o e).bind fun found =>
      (removeMatched q o storage).map fun kept => kept ++ if found then [] else [e] := by
  induction storage with
  | nil =>
    simp only [nil_append, removeMatched, bind, Except.bind]
    cases matchEntry q o e with
    | error err => rfl
    | ok found => cases found <;> rfl
  | cons x storage ih =>
    rw [cons_append, removeMatched, ih, removeMatched]
    simp only [bind, Except.bind]
    cases matchEntry q o e with
    | error err => rfl
    | ok found =>
      cases removeMatched q o storage with
      | error err => rfl
      | ok kept =>
        cases matchEntry q o x with
        | error err => rfl
        | ok b => cases b <;> rfl

/-- What a run left: the same answer as the function, and on a throw only the arrays have changed. -/
def Agrees (w : World P) (r : Except JsError Unit × World P) : Except JsError (List (Entry P) × List (Entry P)) → Prop
  | .ok next => r = (.ok (), { w with storage := next.1, addedItems := next.2 })
  | .error e => ∃ storage addedItems, r = (.error e, { w with storage, addedItems })

variable {w : World P} {storage : List (Entry P)} {x : Except JsError (List (Entry P) × List (Entry P))}

theorem Agrees.of_arrays {addedItems : List (Entry P)} {r : Except JsError Unit × World P}
    (h : Agrees { w with storage, addedItems } r x) : Agrees w r x := by
  cases x with
  | error e => exact h
  | ok next => exact h

/-- The loop over indices, with `back` behind the index already done. -/
theorem spliceMatched_exec (q : Request P) (o : Option CacheQueryOptions) (front back : List (Entry P)) (w : World P)
    (hw : w.storage = front ++ back) :
    Agrees w (exec (spliceMatched q o front.length) w) ((removeMatched q o front).map fun kept => (kept ++ back, w.addedItems)) := by
  induction front using List.reverseRecOn generalizing w back with
  | nil =>
    have hsame : w = { w with storage := [] ++ back } := by rw [← hw]
    exact congrArg (Prod.mk (Except.ok ())) hsame
  | append_singleton front e ih =>
    have hget : w.storage[front.length]? = some e := by simp [hw]
    rw [removeMatched_snoc, length_append, length_singleton, spliceMatched, exec_bind_ok (exec_get w)]
    simp only [hget]
    rw [exec_bind, exec_ofExcept]
    cases hm : matchEntry q o e with
    | error err => exact ⟨w.storage, w.addedItems, rfl⟩
    | ok found =>
      cases found with
      | false =>
        have h := ih (e :: back) w (by simp [hw])
        cases hr : removeMatched q o front with
        | error err =>
          rw [hr] at h
          exact h
        | ok kept =>
          rw [hr] at h
          simpa [Agrees, Except.map, Except.bind] using h
      | true =>
        have herase : w.storage.eraseIdx front.length = front ++ back := by simp [hw, eraseIdx_append]
        have h := (ih back { w with storage := w.storage.eraseIdx front.length } herase).of_arrays
        simp only [if_true]
        rw [exec_bind_ok (exec_modify _ w)]
        cases hr : removeMatched q o front with
        | error err =>
          rw [hr] at h
          exact h
        | ok kept =>
          rw [hr] at h
          simpa [Agrees, Except.map, Except.bind] using h

theorem agrees_throw (w : World P) (e : JsError) : Agrees w (.error e, w) (.error e) := ⟨w.storage, w.addedItems, rfl⟩

theorem spliceAll_exec (q : Request P) (o : Option CacheQueryOptions) (w : World P) :
    Agrees w (exec (spliceMatched q o w.storage.length) w) ((removeMatched q o w.storage).map fun kept => (kept, w.addedItems)) := by
  simpa using spliceMatched_exec q o w.storage [] w (by simp)

theorem agrees_throwIf {c : Prop} [Decidable c] (e : JsError) {f : Unit → Batch P Unit}
    (h : ¬c → Agrees w (exec (f ()) w) x) :
    Agrees w (exec (throwIf c e >>= f) w) (if c then .error e else x) := by
  rw [exec_throwIf_bind]
  by_cases hc : c
  · rw [if_pos hc, if_pos hc]
    exact agrees_throw w e
  · rw [if_neg hc, if_neg hc]
    exact h hc

theorem agrees_ofExcept {α : Type} (x : Except JsError α) {f : α → Batch P Unit}
    {g : α → Except JsError (List (Entry P) × List (Entry P))} (h : ∀ a, x = .ok a → Agrees w (exec (f a) w) (g a)) :
    Agrees w (exec (ofExcept x >>= f) w) (x >>= g) := by
  rw [exec_bind, exec_ofExcept]
  cases x with
  | error e => exact agrees_throw w e
  | ok a => exact h a rfl

theorem putStep_exec (op : StoredOperation P) (p : Response) (store : Bytes) (w : World P) :
    Agrees w (exec (putStep op p store w.storage.length) w) (do
      let url ← newUrl P op.request.url
      if P.url.protocol url ∉ allowedProtocols then
        .error (.typeError ("Unsupported protocol '".toList ++ P.url.protocol url ++ "' in cache".toList))
      else if op.request.method ≠ Fetch.get then typeError "Unable to cache requests other than GET method"
      else if op.options.isSome then typeError "Invalid cache put operation"
      else do
        let storage ← removeMatched op.request op.options w.storage
        let item : Entry P := { request := op.request, response := p, store }
        .ok (storage ++ [item], w.addedItems ++ [item])) := by
  refine agrees_ofExcept _ fun url _ => ?_
  refine agrees_throwIf _ fun _ => agrees_throwIf _ fun _ => agrees_throwIf _ fun _ => ?_
  have h := spliceAll_exec op.request op.options w
  cases hr : removeMatched op.request op.options w.storage with
  | error e =>
    rw [hr] at h
    obtain ⟨storage, added, he⟩ := h
    exact ⟨storage, added, exec_bind_error he⟩
  | ok kept =>
    rw [hr] at h
    have he : exec (spliceMatched op.request op.options w.storage.length) w = (.ok (), { w with storage := kept }) := h
    rw [exec_bind_ok he]
    rfl

theorem step_exec (op : StoredOperation P) (w : World P) : Agrees w (exec (step op) w) (rawStep op w.storage w.addedItems) := by
  unfold rawStep step
  by_cases hd : op.type = deleteType
  · have htype : ¬op.type ∉ batchOperationTypes := by simp [batchOperationTypes, hd]
    have ho : opType? op.type = some .delete := by simp [opType?, hd]
    rw [ho, exec_throwIf_bind, if_neg htype, exec_throwIf_bind]
    by_cases hr : op.response.isSome
    · rw [if_pos ⟨hd, hr⟩]
      simp only [atomicStep, hr, and_self, if_true]
      exact agrees_throw w _
    · rw [if_neg fun h => hr h.2, exec_bind_ok (exec_get w)]
      simp only [atomicStep, hr, Bool.false_eq_true, and_false, if_false]
      refine agrees_ofExcept _ fun found _ => agrees_throwIf _ fun _ => ?_
      have h := spliceAll_exec op.request op.options w
      rw [if_pos hd]
      cases hm : removeMatched op.request op.options w.storage with
      | error e =>
        rw [hm] at h
        exact h
      | ok kept =>
        rw [hm] at h
        exact h
  · rw [exec_throwIf_bind]
    by_cases hp : op.type = putType
    · have htype : ¬op.type ∉ batchOperationTypes := by simp [batchOperationTypes, hp]
      have ho : opType? op.type = some .put := by rw [opType?, if_neg hd, if_pos hp]
      rw [ho, if_neg htype, exec_throwIf_bind, if_neg fun h => hd h.1, exec_bind_ok (exec_get w)]
      simp only [atomicStep, reduceCtorEq, false_and, if_false]
      refine agrees_ofExcept _ fun found _ => agrees_throwIf _ fun _ => ?_
      rw [if_neg hd, if_pos hp]
      cases hr : op.response with
      | none => exact agrees_throw w _
      | some x => exact putStep_exec op x.1 x.2 w
    · have htype : op.type ∉ batchOperationTypes := by simp [batchOperationTypes, hd, hp]
      have ho : opType? op.type = none := by simp [opType?, hd, hp]
      rw [ho, if_pos htype]
      exact agrees_throw w _

theorem steps_exec (operations : List (StoredOperation P)) (w : World P) :
    match rawSteps operations w.storage w.addedItems with
    | .ok entries => ∃ added, exec (operations.forM step) w = (.ok (), { w with storage := entries, addedItems := added })
    | .error e => ∃ storage added, exec (operations.forM step) w = (.error e, { w with storage, addedItems := added }) := by
  induction operations generalizing w with
  | nil => exact ⟨w.addedItems, rfl⟩
  | cons op operations ih =>
    have h := step_exec op w
    rw [rawSteps, exec_forM_cons]
    cases hs : rawStep op w.storage w.addedItems with
    | error e =>
      rw [hs] at h
      obtain ⟨storage, added, he⟩ := h
      exact ⟨storage, added, exec_bind_error he⟩
    | ok next =>
      rw [hs] at h
      rw [exec_bind_ok h]
      exact ih { w with storage := next.1, addedItems := next.2 }

/-! ## Single operations -/

/-- A delete removes what its request matches; a put does too and appends its entry. -/
def applyOp (storage : List (Entry P)) (op : StoredOperation P) : List (Entry P) :=
  let kept := storage.filter (!finds op.request op.options ·)
  if op.type = putType then
    match op.response with
    | none => kept
    | some (response, store) => kept ++ [{ request := op.request, response, store }]
  else kept

variable {op : StoredOperation P} {added : List (Entry P)} {next : List (Entry P) × List (Entry P)}

theorem rawStep_apply (h : rawStep op storage added = .ok next) : next.1 = applyOp storage op := by
  unfold rawStep opType? at h
  by_cases hd : op.type = deleteType
  · have hp : op.type ≠ putType := by
      rw [hd]
      decide
    rw [if_pos hd] at h
    obtain ⟨kept, hk, ⟨-, hn⟩ | ⟨ht, -⟩⟩ := atomicStep_ok h
    · rw [hn, applyOp, if_neg hp]
      exact (removeMatched_filter hk).1
    · cases ht
  · rw [if_neg hd] at h
    by_cases hp : op.type = putType
    · rw [if_pos hp] at h
      obtain ⟨kept, hk, ⟨ht, -⟩ | ⟨-, p, store, hr, -, -, hn⟩⟩ := atomicStep_ok h
      · cases ht
      · have hr : op.response = some (p, store) := hr
        rw [hn, applyOp, if_pos hp, (removeMatched_filter hk).1]
        simp only [hr]
    · rw [if_neg hp] at h
      cases h

variable {operations : List (StoredOperation P)} {entries : List (Entry P)}

theorem rawSteps_foldl
    (h : rawSteps operations storage added = .ok entries) : entries = operations.foldl applyOp storage := by
  induction operations generalizing storage added with
  | nil => exact (Except.ok.inj h).symm
  | cons op operations ih =>
    obtain ⟨next, hn, h⟩ := bind_ok.mp h
    rw [foldl_cons, ← rawStep_apply hn]
    exact ih h

/-- What an operation must be for any array to take it. -/
def Acceptable (op : StoredOperation P) : Prop :=
  op.type = deleteType ∧ op.response = none ∨
  op.type = putType ∧ op.response.isSome ∧ op.request.method = Fetch.get ∧ op.options = none ∧
    ∃ url, newUrl P op.request.url = .ok url ∧ P.url.protocol url ∈ allowedProtocols

theorem rawStep_acceptable (h : rawStep op storage added = .ok next) : Acceptable op := by
  unfold rawStep opType? at h
  by_cases hd : op.type = deleteType
  · simp only [if_pos hd, atomicStep] at h
    split at h
    · cases h
    · next hresponse => exact Or.inl ⟨hd, by simpa using hresponse⟩
  · rw [if_neg hd] at h
    by_cases hp : op.type = putType
    · simp only [if_pos hp, atomicStep, reduceCtorEq, false_and, if_false] at h
      obtain ⟨found, -, h⟩ := bind_ok.mp h
      split at h
      · cases h
      split at h
      · cases h
      next hresponse =>
      obtain ⟨url, hurl, h⟩ := bind_ok.mp h
      split at h
      · cases h
      next hprotocol =>
      split at h
      · cases h
      next hmethod =>
      split at h
      · cases h
      next hoptions =>
      exact Or.inr ⟨hp, by simp [hresponse], not_not.mp hmethod, by simpa using hoptions, url, hurl, not_not.mp hprotocol⟩
    · rw [if_neg hp] at h
      cases h

theorem rawSteps_acceptable
    (h : rawSteps operations storage added = .ok entries) : ∀ op ∈ operations, Acceptable op := by
  induction operations generalizing storage added with
  | nil => simp
  | cons op operations ih =>
    obtain ⟨next, hn, h⟩ := bind_ok.mp h
    exact forall_mem_cons.mpr ⟨rawStep_acceptable hn, ih h⟩

/-! ## The files and the lock -/

theorem readStorage_exec (w : World P) : exec (readStorage : Batch P Unit) w =
    match readCacheFullStorage P w.disk with
    | .error e => (.error e, { w with trace := w.trace ++ [.readCacheFullStorage] })
    | .ok storage => (.ok (), { w with storage, trace := w.trace ++ [.readCacheFullStorage] }) := by
  unfold readStorage
  rw [exec_bind_ok (exec_modify _ w), exec_bind_ok (exec_get _), exec_bind, exec_ofExcept]
  cases readCacheFullStorage P w.disk with
  | error e => rfl
  | ok storage => rfl

/-- What is left after the steps, thrown or not: the arrays may have changed, nothing else has. -/
theorem atomicSteps_exec (stored : List (StoredOperation P)) (w : World P) :
    match rawSteps stored w.storage [] with
    | .ok entries => ∃ added, exec (batchCacheOperationsAtomicSteps stored) w = (.ok (), { w with storage := entries, addedItems := added })
    | .error e => ∃ storage added, exec (batchCacheOperationsAtomicSteps stored) w = (.error e, { w with storage, addedItems := added }) := by
  have h := steps_exec stored { w with addedItems := [] }
  unfold batchCacheOperationsAtomicSteps
  rw [exec_bind_ok (exec_modify _ w)]
  exact h

theorem atomicSteps_result (stored : List (StoredOperation P)) (w : World P) :
    (exec (batchCacheOperationsAtomicSteps stored) w).1 = (rawSteps stored w.storage []).map fun _ => () := by
  have h := atomicSteps_exec stored w
  cases hr : rawSteps stored w.storage [] with
  | error e =>
    rw [hr] at h
    obtain ⟨storage, added, h⟩ := h
    rw [h]
    rfl
  | ok entries =>
    rw [hr] at h
    obtain ⟨added, h⟩ := h
    rw [h]
    rfl

theorem writeObjects_exec (entries : List (Entry P)) (w : World P) :
    exec (entries.forM (writeObjectPage hash)) w =
      (.ok (), { w with
        disk := { w.disk with objects := writeObjects hash entries w.disk.objects }
        trace := w.trace ++ entries.map fun e => .writeCacheObjectPage (e.path hash) }) := by
  induction entries generalizing w with
  | nil => simp [writeObjects]
  | cons e entries ih =>
    rw [exec_forM_cons, writeObjectPage, exec_bind_ok (exec_modify _ w), ih]
    simp [writeObjects]

theorem writePages_exec (w : World P) :
    exec (writePages hash) w =
      (.ok (), { w with
        disk := writeStorage hash w.storage w.disk
        trace := w.trace ++ .writeCachePage :: w.storage.map fun e => .writeCacheObjectPage (e.path hash) }) := by
  unfold writePages
  rw [exec_bind_ok (exec_modify _ w), exec_bind_ok (exec_get _), writeObjects_exec]
  simp [writeStorage]

/-! ## The whole batch -/

def World.atSteps (w : World P) (storage : List (Entry P)) : World P :=
  { w with locked := true, storage, trace := w.trace ++ [.acquireResource, .readCacheFullStorage] }

variable {e : JsError}

/-- A response that cannot be read: the lock is not asked for. -/
theorem batch_unstored {operations : List (RawOperation P)} (hstore : operations.mapM store = .error e) (w : World P) :
    exec (batchCacheOperations hash operations) w = (.error e, w) := by
  unfold batchCacheOperations
  rw [hstore]
  exact exec_bind_error (exec_ofExcept _ w)

variable {r : Except JsError Unit} {u : World P}

section Stored

variable {operations : List (RawOperation P)} {stored : List (StoredOperation P)} (hstore : operations.mapM store = .ok stored)
  (w : World P)

include hstore

theorem batch_exec (h : exec (do readStorage; batchCacheOperationsAtomicSteps stored; writePages hash)
      { w with locked := true, trace := w.trace ++ [.acquireResource] } = (r, u)) :
    exec (batchCacheOperations hash operations) w = (r, { u with locked := false, trace := u.trace ++ [.release] }) := by
  unfold batchCacheOperations
  rw [hstore, exec_bind_ok (exec_ofExcept _ w), acquireResource, exec_bind_ok (exec_modify _ w), exec_tryFinally, h]
  rfl

/-- Files that cannot be read. -/
theorem batch_unread (hread : readCacheFullStorage P w.disk = .error e) :
    ∃ w', exec (batchCacheOperations hash operations) w = (.error e, w') ∧ w'.disk = w.disk ∧ w'.locked = false := by
  have hreads := readStorage_exec { w with locked := true, trace := w.trace ++ [.acquireResource] }
  rw [hread] at hreads
  exact ⟨_, batch_exec hash hstore w (exec_bind_error hreads), rfl, rfl⟩

variable {storage : List (Entry P)} (hread : readCacheFullStorage P w.disk = .ok storage)

include hread

theorem batch_exec_read
    (h : exec (batchCacheOperationsAtomicSteps stored >>= fun _ => writePages hash) (w.atSteps storage) = (r, u)) :
    exec (batchCacheOperations hash operations) w = (r, { u with locked := false, trace := u.trace ++ [.release] }) := by
  apply batch_exec hash hstore
  have hreads : exec (readStorage : Batch P Unit) { w with locked := true, trace := w.trace ++ [.acquireResource] } =
      (.ok (), w.atSteps storage) := by
    rw [readStorage_exec]
    simp only [hread, World.atSteps, append_assoc, cons_append, nil_append]
  rw [exec_bind_ok hreads]
  exact h

theorem batch_thrown (hsteps : rawSteps stored storage [] = .error e) :
    ∃ w', exec (batchCacheOperations hash operations) w = (.error e, w') ∧ w'.disk = w.disk ∧ w'.locked = false ∧
      w'.trace = w.trace ++ [.acquireResource, .readCacheFullStorage, .release] := by
  have h := atomicSteps_exec stored (w.atSteps storage)
  have harray : (w.atSteps storage).storage = storage := rfl
  rw [harray, hsteps] at h
  obtain ⟨left, added, h⟩ := h
  refine ⟨_, batch_exec_read hash hstore w hread (exec_bind_error h), rfl, rfl, ?_⟩
  simp [World.atSteps]

theorem batch_written (hsteps : rawSteps stored storage [] = .ok entries) :
    ∃ w', exec (batchCacheOperations hash operations) w = (.ok (), w') ∧ w'.disk = writeStorage hash entries w.disk ∧ w'.locked = false := by
  have h := atomicSteps_exec stored (w.atSteps storage)
  have harray : (w.atSteps storage).storage = storage := rfl
  rw [harray, hsteps] at h
  obtain ⟨added, h⟩ := h
  have hwrite := writePages_exec hash { w.atSteps storage with storage := entries, addedItems := added }
  exact ⟨_, batch_exec_read hash hstore w hread ((exec_bind_ok h).trans hwrite), rfl, rfl⟩

theorem unacceptable_throws (hbad : ∃ op ∈ stored, ¬Acceptable op) :
    ∃ e w', exec (batchCacheOperations hash operations) w = (.error e, w') ∧ w'.disk = w.disk ∧ w'.locked = false := by
  cases hr : rawSteps stored storage [] with
  | error e =>
    obtain ⟨w', hw', hdisk, hlocked, -⟩ := batch_thrown hash hstore w hread hr
    exact ⟨e, w', hw', hdisk, hlocked⟩
  | ok entries =>
    obtain ⟨op, hop, hno⟩ := hbad
    exact absurd (rawSteps_acceptable hr op hop) hno

/-- A batch with responses and files that can be read. If an operation throws, the batch throws
    its error, the files are as they were and the lock is released. Otherwise the files hold what
    the operations leave one after the other. -/
theorem batch_atomic :
    (∀ e u, exec (batchCacheOperationsAtomicSteps stored) (w.atSteps storage) = (.error e, u) →
      ∃ w', exec (batchCacheOperations hash operations) w = (.error e, w') ∧ w'.disk = w.disk ∧ w'.locked = false ∧
        w'.trace = w.trace ++ [.acquireResource, .readCacheFullStorage, .release]) ∧
    (∀ u, exec (batchCacheOperationsAtomicSteps stored) (w.atSteps storage) = (.ok (), u) →
      ∃ w', exec (batchCacheOperations hash operations) w = (.ok (), w') ∧
        w'.disk = writeStorage hash (stored.foldl applyOp storage) w.disk ∧ w'.locked = false) := by
  have hresult := atomicSteps_result stored (w.atSteps storage)
  have harray : (w.atSteps storage).storage = storage := rfl
  rw [harray] at hresult
  constructor
  · intro e u hu
    rw [hu] at hresult
    cases hr : rawSteps stored storage [] with
    | error thrown =>
      rw [hr] at hresult
      obtain rfl := Except.error.inj hresult
      exact batch_thrown hash hstore w hread hr
    | ok entries =>
      rw [hr] at hresult
      cases hresult
  · intro u hu
    rw [hu] at hresult
    cases hr : rawSteps stored storage [] with
    | error thrown =>
      rw [hr] at hresult
      cases hresult
    | ok entries =>
      rw [← rawSteps_foldl hr]
      exact batch_written hash hstore w hread hr

end Stored

/-- A put that is taken, and one for another method. -/
def halfBatch : List (RawOperation linePlatform) :=
  [{ type := putType, request := lineRequest, response := some (plainResponse 200 [1]) },
    { type := putType, request := { lineRequest with method := "POST".toList }, response := some (plainResponse 200 [2]) }]

theorem unacceptable_throws_half :
    ∃ e w', exec (batchCacheOperations id halfBatch) { disk := {} } = (.error e, w') ∧ w'.disk = {} ∧ w'.locked = false := by
  refine @unacceptable_throws linePlatform id halfBatch _ rfl { disk := {} } [] rfl ⟨_, mem_cons_of_mem _ mem_cons_self, ?_⟩
  rintro (⟨h, -⟩ | ⟨-, -, h, -⟩) <;> cases h

theorem halfBatch_atomic :
    (∃ e w', exec (batchCacheOperations id halfBatch) { disk := {} } = (.error e, w') ∧ w'.disk = {} ∧ w'.locked = false) ∧
    ∃ w', exec (batchCacheOperations id (halfBatch.take 1)) { disk := {} } = (.ok (), w') ∧ w'.disk.items.length = 1 ∧ w'.locked = false := by
  constructor
  · obtain ⟨w', hw', hdisk, hlocked, -⟩ := (@batch_atomic linePlatform id halfBatch _ rfl { disk := {} } [] rfl).1 _ _ rfl
    exact ⟨_, w', hw', hdisk, hlocked⟩
  · obtain ⟨w', hw', hdisk, hlocked⟩ := (@batch_atomic linePlatform id (halfBatch.take 1) _ rfl { disk := {} } [] rfl).2 _ rfl
    exact ⟨w', hw', by rw [hdisk]; rfl, hlocked⟩

end Aworker.Cache.InPlace
