/-
  Aworker.Cache.Storages — the list of caches (lib/cache.js: `CacheStorage.open`, `delete`;
  aworker_cache.cc: `CacheStorage::Ensure`, `Delete`).

  Both calls read the storage page, change the list and write the page back. They acquire
  the '[CacheStorage]' resource first, but `return new Promise(..)` inside `try` does not
  wait: `finally` releases the resource as soon as the binding call has been started, with
  the page's read, and everything after it, still to come.

  - `alone_storage`: a call on its own does to the page what `execStorage` says.
  - `open_lost`: two workers open two caches, and one of the names is lost.
  Also `storage_updates_kept`.
-/

import Aworker.Lib.File
import Aworker.Lib.Serial

namespace Aworker.Cache

open Aworker.Lib Option

/-! ## The calls -/

structure CacheStoragePage where
  caches : List String
  deriving DecidableEq

/-- `ensure` is `CacheStorage.open`, by the binding's name. -/
inductive StorageCall where
  | ensure (cacheName : String)
  | delete (cacheName : String)
  deriving DecidableEq

structure StorageDisk where
  file : Option (File CacheStoragePage) := none
  /-- inodes made so far -/
  made : Nat := 0

def StorageDisk.page (d : StorageDisk) : Option CacheStoragePage := d.file.map File.content

inductive StoragePhase where
  | reading (k : StorageCall) (opened : Opened CacheStoragePage)
  | writing (inode : Nat)
  /-- the binding's callback has been called with this value -/
  | called (b : Bool)

def writeCacheStoragePage (d : StorageDisk) (page : CacheStoragePage) : StoragePhase × StorageDisk :=
  (.writing d.made, { file := some { inode := d.made, content := page, complete := false }, made := d.made + 1 })

/-- `SwapElements(idx, last)` and `RemoveLast` for the first `cacheName`. -/
def swapRemove (caches : List String) (cacheName : String) : List String :=
  match caches.findIdx? (· == cacheName) with
  | none => caches
  | some idx => (caches.set idx (caches.getLast?.getD cacheName)).dropLast

/-- The callbacks `Ensure` and `Delete` give to `ReadCacheStoragePage`. `none` is `!res.success`. -/
def StorageCall.afterRead (d : StorageDisk) : StorageCall → Option CacheStoragePage → StoragePhase × StorageDisk
  | .ensure cacheName, none => writeCacheStoragePage d { caches := [cacheName] }
  | .ensure cacheName, some page =>
    if cacheName ∈ page.caches then (.called true, d)
    else writeCacheStoragePage d { caches := page.caches ++ [cacheName] }
  | .delete _, none => (.called false, d)
  | .delete cacheName, some page =>
    if cacheName ∈ page.caches then writeCacheStoragePage d { caches := swapRemove page.caches cacheName }
    else (.called true, d)

/-- A missing file is reported at once; otherwise the open file is read in the background. -/
def enterStorage (k : StorageCall) (d : StorageDisk) : StoragePhase × StorageDisk :=
  match Opened.of d.file with
  | .missing => k.afterRead d none
  | o => (.reading k o, d)

inductive StorageIo where
  /-- the read has reached the end; `torn` is what it made of a file that was being written -/
  | readDone (torn : Option CacheStoragePage)
  | writeDone

def storageIo (l : StoragePhase) (d : StorageDisk) (e : StorageIo) : Option (StoragePhase × StorageDisk) :=
  match l, e with
  | .reading k o, .readDone torn => some (k.afterRead d (o.read torn))
  | .writing inode, .writeDone => some (.called true, { d with file := d.file.map (File.finish inode) })
  | _, _ => none

def storageTask : Task StorageCall StorageDisk StoragePhase StorageIo Bool where
  enter := enterStorage
  step := storageIo
  result
    | .called b => some b
    | _ => none

def execStorage : StorageCall → Option CacheStoragePage → Bool × Option CacheStoragePage
  | .ensure cacheName, none => (true, some { caches := [cacheName] })
  | .ensure cacheName, some page =>
    (true, some (if cacheName ∈ page.caches then page else { caches := page.caches ++ [cacheName] }))
  | .delete _, none => (false, none)
  | .delete cacheName, some page =>
    (true, some (if cacheName ∈ page.caches then { caches := swapRemove page.caches cacheName } else page))

/-! ## A call on its own -/

/-- Where call `k`, on its own from a settled file holding `before`, can be. -/
def StorageStage (k : StorageCall) (before : Option CacheStoragePage) (p : StoragePhase × StorageDisk) : Prop :=
  match p.1 with
  | .reading k' o => k' = k ∧ Settled p.2.file ∧ p.2.page = before ∧ ∀ t, o.read t = before
  | .writing inode => ∃ page, p.2.file = some { inode := inode, content := page, complete := false } ∧
      execStorage k before = (true, some page)
  | .called b => Settled p.2.file ∧ execStorage k before = (b, p.2.page)

variable {d : StorageDisk}

theorem afterRead_stage (k : StorageCall) (h : Settled d.file) : StorageStage k d.page (k.afterRead d d.page) := by
  cases k with
  | ensure cacheName =>
    cases hp : d.page with
    | none => exact ⟨_, rfl, rfl⟩
    | some page =>
      by_cases hm : cacheName ∈ page.caches
      · simp [StorageCall.afterRead, StorageStage, execStorage, hm, h, hp]
      · simp [StorageCall.afterRead, StorageStage, execStorage, hm, writeCacheStoragePage]
  | delete cacheName =>
    cases hp : d.page with
    | none => exact ⟨h, by simp [execStorage, StorageCall.afterRead, hp]⟩
    | some page =>
      by_cases hm : cacheName ∈ page.caches
      · simp [StorageCall.afterRead, StorageStage, execStorage, hm, writeCacheStoragePage]
      · simp [StorageCall.afterRead, StorageStage, execStorage, hm, h, hp]

theorem enterStorage_stage (k : StorageCall) (h : Settled d.file) : StorageStage k d.page (enterStorage k d) := by
  cases hf : d.file with
  | none =>
    have hp : d.page = none := by simp [StorageDisk.page, hf]
    have := afterRead_stage k h
    rw [hp] at this
    simpa [enterStorage, Opened.of, hf, hp] using this
  | some f =>
    have hc : f.complete = true := h f hf
    have he : enterStorage k d = (.reading k (.whole f.content), d) := by simp [enterStorage, Opened.of, hf, hc]
    rw [he]
    exact ⟨rfl, h, rfl, fun t => by simp [Opened.read, StorageDisk.page, hf]⟩

theorem storageIo_stage (k : StorageCall) (before : Option CacheStoragePage) (p : StoragePhase × StorageDisk) (e : StorageIo)
    (p' : StoragePhase × StorageDisk) (h : StorageStage k before p) (hs : soloStep storageTask p e = some p') :
    StorageStage k before p' := by
  obtain ⟨l, d⟩ := p
  cases l with
  | reading k' o =>
    obtain ⟨rfl, hset, hpage, hread⟩ := h
    cases e with
    | readDone torn =>
      have hp : p' = k'.afterRead d d.page := by
        simp only [soloStep, storageTask, storageIo, hread torn, ← hpage, Option.some.injEq] at hs
        exact hs.symm
      subst hp
      have hd : d.page = before := hpage
      rw [← hd]
      exact afterRead_stage k' hset
    | writeDone => cases hs
  | writing inode =>
    obtain ⟨page, hf, hx⟩ := h
    cases e with
    | readDone torn => cases hs
    | writeDone =>
      have hfile : d.file = some { inode := inode, content := page, complete := false } := hf
      simp only [soloStep, storageTask, storageIo, hfile, map_some, File.finish, if_true, Option.some.injEq] at hs
      subst hs
      refine ⟨?_, hx⟩
      intro g hg
      cases hg
      rfl
  | called b => cases e <;> cases hs

theorem alone_storage (k : StorageCall) (d : StorageDisk) (b : Bool) (t : StorageDisk) (h : Settled d.file)
    (ha : Alone storageTask k d b t) : execStorage k d.page = (b, t.page) ∧ Settled t.file := by
  obtain ⟨es, l, hrun, hb⟩ := ha
  have hst : StorageStage k d.page (l, t) :=
    run_inv (Q := fun _ _ => True) (fun p e p' hI _ hs => storageIo_stage k d.page p e p' hI hs)
      (enterStorage_stage k h) (along_true _ _) hrun
  cases l with
  | called c =>
    have hc : c = b := by simpa [storageTask] using hb
    subst hc
    exact ⟨hst.2, hst.1⟩
  | reading k o => cases hb
  | writing inode => cases hb

/-! ## Workers and the resource -/

variable {ι : Type} [DecidableEq ι] (call : ι → StorageCall)

structure Workers (ι : Type) where
  /-- whose acquisition of '[CacheStorage]' the agent has granted and not yet seen released -/
  lock : Option ι := none
  granted : ι → Bool := fun _ => false
  /-- the calls, from the start of the binding call to the resolution of the promise -/
  calls : Sys ι StorageDisk StoragePhase Bool

inductive WorkerEv (ι : Type) where
  | grant (i : ι)
  /-- after `acquireResource`: the binding call is started and the release is sent -/
  | start (i : ι)
  | release (i : ι)
  | io (i : ι) (e : StorageIo)
  | resolve (i : ι)

def workerStep (s : Workers ι) : WorkerEv ι → Option (Workers ι)
  | .grant i =>
    if s.lock.isNone && !s.granted i then some { s with lock := some i, granted := Function.update s.granted i true }
    else none
  | .start i =>
    if s.granted i then (sysStep storageTask call s.calls (.enter i)).map fun c => { s with calls := c } else none
  | .release i =>
    match s.calls.threads i with
    | .waiting => none
    | _ => if s.lock = some i then some { s with lock := none } else none
  | .io i e => (sysStep storageTask call s.calls (.work i e)).map fun c => { s with calls := c }
  | .resolve i => (sysStep storageTask call s.calls (.leave i)).map fun c => { s with calls := c }

/-- No call is started while another one has not resolved. -/
def NoOverlap (s : Workers ι) : WorkerEv ι → Prop
  | .start _ => s.calls.holders = []
  | _ => True

instance (s : Workers ι) : ∀ e, Decidable (NoOverlap s e)
  | .start _ => inferInstanceAs (Decidable (s.calls.holders = []))
  | .grant _ => isTrue trivial
  | .release _ => isTrue trivial
  | .io _ _ => isTrue trivial
  | .resolve _ => isTrue trivial

def LeftByOrder (call : ι → StorageCall) (before after : Option CacheStoragePage) : Prop :=
  ∃ order : List ι, order.Nodup ∧ (∀ i, i ∈ order) ∧ (replay execStorage before (order.map call)).2 = after

theorem workerStep_simulates (s : Workers ι) (e : WorkerEv ι) (s' : Workers ι) (hq : NoOverlap s e)
    (hs : workerStep call s e = some s') :
    s'.calls = s.calls ∨ ∃ d, sysStep storageTask call s.calls d = some s'.calls ∧ Admits call (fun _ => false) s.calls d := by
  cases e with
  | grant i =>
    left
    simp only [workerStep] at hs
    split at hs
    · cases hs; rfl
    · cases hs
  | start i =>
    right
    simp only [workerStep] at hs
    split at hs
    · obtain ⟨c, hc, rfl⟩ := map_eq_some_iff.mp hs
      exact ⟨.enter i, hc, hq⟩
    · cases hs
  | release i =>
    left
    simp only [workerStep] at hs
    split at hs
    · cases hs
    · split at hs
      · cases hs; rfl
      · cases hs
  | io i e =>
    right
    obtain ⟨c, hc, rfl⟩ := map_eq_some_iff.mp hs
    exact ⟨.work i e, hc, trivial⟩
  | resolve i =>
    right
    obtain ⟨c, hc, rfl⟩ := map_eq_some_iff.mp hs
    exact ⟨.leave i, hc, trivial⟩

/-- In a run in which no call is started while another has not resolved, the page that is
    left when all calls have resolved is that of calling them one after the other. -/
theorem storage_updates_kept {d : StorageDisk} (hd : Settled d.file) {es : List (WorkerEv ι)} {t : Workers ι}
    (hr : run (workerStep call) { calls := { shared := d } } es = some t)
    (hq : Along (workerStep call) NoOverlap { calls := { shared := d } } es)
    (hdone : ∀ i, ∃ b, t.calls.threads i = .done b) : LeftByOrder call d.page t.calls.shared.page := by
  obtain ⟨ds, hds, hal⟩ := run_simulates (I := fun _ => True) Workers.calls (fun _ _ _ _ _ _ => trivial)
    (fun s e s' _ => workerStep_simulates call s e s') trivial hq hr
  have hout : ∀ i l, t.calls.threads i ≠ .inside l := by
    intro i l hl
    obtain ⟨b, hb⟩ := hdone i
    rw [hl] at hb; cases hb
  obtain ⟨o, hnd, hvalues, hin⟩ := serializes (fun _ => false) (by nofun) hds hal hout
  obtain ⟨hrep, -⟩ := inOrder_replay alone_storage hd hin
  refine ⟨o.map Prod.fst, hnd, fun i => ?_, ?_⟩
  · obtain ⟨b, hb⟩ := hdone i
    exact List.mem_map.mpr ⟨(i, b), (hvalues i b).mpr hb, rfl⟩
  · rw [List.map_map]
    exact congrArg Prod.snd hrep

/-- Two workers open one cache each; the page is there and lists nothing. -/
def twoOpens : Fin 2 → StorageCall
  | 0 => .ensure "v1"
  | 1 => .ensure "v2"

def emptyPage : StorageDisk := { file := some { inode := 0, content := { caches := [] }, complete := true }, made := 1 }

def wholeCall (i : Fin 2) : List (WorkerEv (Fin 2)) :=
  [.grant i, .start i, .release i, .io i (.readDone none), .io i .writeDone, .resolve i]

theorem storage_updates_kept_two :
    ∃ t, run (workerStep twoOpens) { calls := { shared := emptyPage } } (wholeCall 0 ++ wholeCall 1) = some t ∧
      t.calls.shared.page = some { caches := ["v1", "v2"] } ∧ LeftByOrder twoOpens emptyPage.page t.calls.shared.page := by
  refine ⟨_, rfl, rfl, ?_⟩
  have hsettled : Settled emptyPage.file := by
    intro g hg
    cases hg
    rfl
  refine @storage_updates_kept _ _ twoOpens emptyPage hsettled (wholeCall 0 ++ wholeCall 1) _ rfl (by decide) fun i => ⟨true, ?_⟩
  fin_cases i <;> rfl

/-- The second worker gets the resource while the first one's page is still being read. -/
def overlapping : List (WorkerEv (Fin 2)) :=
  [.grant 0, .start 0, .release 0, .grant 1, .start 1, .release 1, .io 0 (.readDone none), .io 0 .writeDone, .resolve 0,
    .io 1 (.readDone none), .io 1 .writeDone, .resolve 1]

theorem v2_not_left : ¬ LeftByOrder twoOpens emptyPage.page (some { caches := ["v2"] }) := by
  rintro ⟨order, hnd, hall, hpage⟩
  have hperm : order.Perm [0, 1] := by
    refine (List.perm_ext_iff_of_nodup hnd (by decide)).mpr fun i => ?_
    fin_cases i <;> simp [hall]
  have htwo : ∀ x y : Fin 2, [x, y].Perm [0, 1] →
      (replay execStorage emptyPage.page ([x, y].map twoOpens)).2 ≠ some { caches := ["v2"] } := by decide
  obtain ⟨x, y, rfl⟩ := List.length_eq_two.mp hperm.length_eq
  exact htwo x y hperm hpage

theorem open_lost :
    ∃ t, run (workerStep twoOpens) { calls := { shared := emptyPage } } overlapping = some t ∧
      (∀ i, t.calls.threads i = .done true) ∧ t.calls.shared.page = some { caches := ["v2"] } ∧
      ¬ LeftByOrder twoOpens emptyPage.page t.calls.shared.page :=
  ⟨_, rfl, fun i => by fin_cases i <;> rfl, rfl, v2_not_left⟩

end Aworker.Cache
