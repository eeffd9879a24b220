/-
  Aworker.Cache.Transaction — page operations inside the exclusive lock (lib/cache.js:
  `batchCacheOperations` with `readCacheFullStorage`, `writeCachePage` and
  `writeCacheObjectPages`).

  Under the lock the call reads the index page, then the object pages one after the other,
  writes the index page, and then writes all object pages at once. Each promise settles when
  the callback of its page operation is called; the call goes on when the promises it awaits
  have settled, and leaves through the `finally` that releases the lock, also when it throws.

  An error result of a read or a write is logged and nothing else happens, so that neither
  the callback nor anything after it is ever called.

  Main results: `op_step_iff`, `lock_released_iff`, `write_error_keeps_lock`.
-/

import Mathlib
import Aworker.Cache.Page

namespace Aworker.Cache

open Aworker.Lib Aworker.Fetch List Option

/-! ## Page operations -/

inductive PageOp (I O : Type) where
  | readIndex (path : Text) (s : PageRead I)
  | readObject (path : Text) (s : PageRead O)
  | write (s : OutputFileStream)

/-- What JavaScript asks the binding for; a file is opened at once. -/
inductive PageCall where
  | readIndex (path : Text) (file : Option Bytes)
  | readObject (path : Text) (file : Option Bytes)
  | write {header body : Bytes} (h : Serialized header) (b : Serialized body) (nonempty : header ≠ [])

inductive IoEv where
  | read (e : ReadEv)
  | write (e : WriteEv)

variable {T : Type} {F : PageFormat T} {path : Text} {s : PageRead T}

section

variable {I O : Type} (FI : PageFormat I) (FO : PageFormat O)

def PageCall.op : PageCall → Option (PageOp I O)
  | .readIndex path file => some (.readIndex path (readPage path file))
  | .readObject path file => some (.readObject path (readPage path file))
  | .write h b _ => (writePage h b).map .write

def opStep : PageOp I O → IoEv → Option (PageOp I O)
  | .readIndex path s, .read e => (readStep FI path s e).map (.readIndex path)
  | .readObject path s, .read e => (readStep FO path s e).map (.readObject path)
  | .write s, .write e => (writeStep s e).map .write
  | _, _ => none

namespace PageOp

def outstanding : PageOp I O → Bool
  | .readIndex _ s => s.stream.reading
  | .readObject _ s => s.stream.reading
  | .write s => s.writing || s.idle

def calls : PageOp I O → Nat
  | .readIndex _ s => s.calls.length
  | .readObject _ s => s.calls.length
  | .write s => s.ended

def aborted : PageOp I O → Bool
  | .readIndex _ s => s.aborted
  | .readObject _ s => s.aborted
  | .write _ => false

/-- The callback has been called once, or it has not been and a result is still to come. -/
def OnTheWay (op : PageOp I O) : Prop := op.aborted = false ∧ op.calls = if op.outstanding then 0 else 1

end PageOp

/-- The end of the file does not find a first buffer shorter than the header, nor a message
    without what the handler checks. -/
def Checked {T : Type} (F : PageFormat T) (s : PageRead T) : Prop :=
  (∀ b ∈ s.stream.bufs.head?, cachePageHeaderSize ≤ b.length) ∧
    (cachePageHeaderSize ≤ s.stream.bufs.flatten.length → headerOk F (s.stream.bufs.flatten.take cachePageHeaderSize) = true →
      F.complete (F.parse (s.stream.bufs.flatten.drop cachePageHeaderSize)).1 = true)

/-- A result that does not disturb its operation. -/
def Undisturbed : PageOp I O → IoEv → Prop
  | .readIndex _ s, .read (.read n) => n = 0 → Checked FI s
  | .readObject _ s, .read (.read n) => n = 0 → Checked FO s
  | _, .read .failed => False
  | _, .write e => e ≠ .failed
  | .write _, .read _ => True

/-! ## One result -/

def Kept : PageOp I O → Prop
  | .readIndex _ s => s.stream.reading = true → s.calls = [] ∧ s.aborted = false ∧ s.stream.Reads
  | .readObject _ s => s.stream.reading = true → s.calls = [] ∧ s.aborted = false ∧ s.stream.Reads
  | .write s => (s.writing || s.idle) = true → ∃ total, s.Pending total

variable {FI FO}

theorem onStream_iff (hr : s.stream.Reads) (hc : s.calls = []) (ha : s.aborted = false) :
    ((onStream F path s).aborted = false ∧ (onStream F path s).calls.length = 1) ↔ Checked F s := by
  unfold Checked onStream
  cases hb : s.stream.bufs with
  | nil => simp [parseHeader_empty hb, hc, ha, cachePageHeaderSize]
  | cons first bufs =>
    have hheader := parseHeader_first (F := F) hr hb
    rw [hb] at hheader
    by_cases hshort : first.length < cachePageHeaderSize
    · rw [if_pos hshort] at hheader
      simp [hheader, not_le.mpr hshort]
    · have hlen : cachePageHeaderSize ≤ (first :: bufs).flatten.length := by
        rw [flatten_cons, length_append]
        omega
      rw [if_neg hshort] at hheader
      cases hok : headerOk F ((first :: bufs).flatten.take cachePageHeaderSize) with
      | true =>
        rw [hok, if_pos rfl] at hheader
        obtain ⟨stream, hparsed, hcontents⟩ := hheader
        have hfirst : ∀ b ∈ (first :: bufs).head?, cachePageHeaderSize ≤ b.length := by simpa using hshort
        simp only [hparsed, hcontents, hc]
        constructor
        · intro h
          exact ⟨hfirst, fun _ _ => by simpa using h.1⟩
        · intro h
          exact ⟨by rw [h.2 hlen trivial]; rfl, rfl⟩
      | false =>
        rw [hok, if_neg Bool.false_ne_true] at hheader
        simp [hheader, hc, ha, not_lt.mp hshort]

theorem read_step_iff {s' : PageRead T} {e : ReadEv}
    (hk : s.stream.reading = true → s.calls = [] ∧ s.aborted = false ∧ s.stream.Reads) (hs : readStep F path s e = some s') :
    (s'.stream.reading = true → s'.calls = [] ∧ s'.aborted = false ∧ s'.stream.Reads) ∧
      ((s'.aborted = false ∧ s'.calls.length = if s'.stream.reading then 0 else 1) ↔
        match e with
        | .read n => n = 0 → Checked F s
        | .failed => False) := by
  cases e with
  | failed =>
    simp only [readStep] at hs
    split at hs
    · rename_i hr
      obtain ⟨hc, -, -⟩ := hk hr
      cases hs
      simp [hc]
    · cases hs
  | read n =>
    simp only [readStep] at hs
    split at hs
    · cases hs
    · rename_i stream hcb
      obtain ⟨hr, -, -, hcases⟩ := InputFileStream.readCb_cases hcb
      obtain ⟨hc, ha, hreads⟩ := hk hr
      have hreads' := InputFileStream.reads_step hreads hcb
      cases hs
      rcases hcases with ⟨rfl, rfl⟩ | ⟨hn, rfl⟩
      · simp only [if_true, onStream_stream, Bool.false_eq_true, if_false, false_implies, true_and, true_implies]
        exact onStream_iff hreads' hc ha
      · simp only [hn, if_false, false_implies, iff_true]
        exact ⟨fun _ => ⟨hc, ha, hreads'⟩, ha, by simp [hr, hc]⟩

theorem write_step_iff {s s' : OutputFileStream} {e : WriteEv} (hk : (s.writing || s.idle) = true → ∃ total, s.Pending total)
    (hs : writeStep s e = some s') :
    ((s'.writing || s'.idle) = true → ∃ total, s'.Pending total) ∧ (s'.ended = (if s'.writing || s'.idle then 0 else 1) ↔ e ≠ .failed) := by
  have hactive : (s.writing || s.idle) = true := by
    cases e with
    | idle => rw [(OutputFileStream.idleCb_cases hs).1, Bool.or_true]
    | wrote n =>
      obtain ⟨_, _, _, _, hw, _⟩ := OutputFileStream.writeCb_cases hs
      rw [hw, Bool.true_or]
    | failed =>
      simp only [writeStep] at hs
      split at hs
      · rename_i hw
        rw [hw, Bool.true_or]
      · cases hs
  obtain ⟨total, hp⟩ := hk hactive
  by_cases he : e = .failed
  · subst he
    simp only [writeStep] at hs
    split at hs
    · rename_i hw
      have hidle : s.idle = false := by rw [hp.active, hw]; rfl
      cases hs
      simp [hidle, hp.notYet]
    · cases hs
  · rcases OutputFileStream.write_step hp he hs with hp' | hf
    · have hact : (s'.writing || s'.idle) = true := by rw [hp'.active]; cases s'.writing <;> rfl
      exact ⟨fun _ => ⟨total, hp'⟩, by simp [hact, hp'.notYet, he]⟩
    · simp [hf.quiet.1, hf.quiet.2, hf.once, he]

variable {op : PageOp I O}

/-- One result: what the operation's machine keeps, and when the operation stays on its way. -/
theorem op_step_iff {op' : PageOp I O} {e : IoEv} (hk : Kept op) (hs : opStep FI FO op e = some op') :
    Kept op' ∧ (op'.OnTheWay ↔ Undisturbed FI FO op e) := by
  cases op with
  | readIndex path s =>
    cases e with
    | write e => cases hs
    | read e =>
      obtain ⟨s', hs', rfl⟩ := map_eq_some_iff.mp hs
      obtain ⟨hk', hiff⟩ := read_step_iff hk hs'
      cases e <;> exact ⟨hk', hiff⟩
  | readObject path s =>
    cases e with
    | write e => cases hs
    | read e =>
      obtain ⟨s', hs', rfl⟩ := map_eq_some_iff.mp hs
      obtain ⟨hk', hiff⟩ := read_step_iff hk hs'
      cases e <;> exact ⟨hk', hiff⟩
  | write s =>
    cases e with
    | read e => cases hs
    | write e =>
      obtain ⟨s', hs', rfl⟩ := map_eq_some_iff.mp hs
      obtain ⟨hk', hiff⟩ := write_step_iff hk hs'
      refine ⟨hk', ?_⟩
      simpa [PageOp.OnTheWay, PageOp.aborted, PageOp.calls, PageOp.outstanding, Undisturbed] using hiff

theorem op_start (c : PageCall) : ∃ op : PageOp I O, c.op = some op ∧ Kept op ∧ op.OnTheWay := by
  cases c with
  | readIndex path file =>
    cases file with
    | none => exact ⟨_, rfl, nofun, rfl, rfl⟩
    | some bytes => exact ⟨_, rfl, fun _ => ⟨rfl, rfl, InputFileStream.reads_start bytes⟩, rfl, rfl⟩
  | readObject path file =>
    cases file with
    | none => exact ⟨_, rfl, nofun, rfl, rfl⟩
    | some bytes => exact ⟨_, rfl, fun _ => ⟨rfl, rfl, InputFileStream.reads_start bytes⟩, rfl, rfl⟩
  | write h b hne =>
    obtain ⟨s, hs, hp⟩ := writePage_pending h b hne
    refine ⟨.write s, by simp [PageCall.op, hs], fun _ => ⟨_, hp⟩, rfl, ?_⟩
    have hact : (s.writing || s.idle) = true := by rw [hp.active]; cases s.writing <;> rfl
    simp [PageOp.calls, PageOp.outstanding, hact, hp.notYet]

/-! ## The call under the lock -/

inductive Stage where
  | readIndex
  | readObject
  | writeIndex
  | writeObjects
  /-- left through `finally` -/
  | released
  deriving DecidableEq

def Stage.next : Stage → List Stage
  | .readIndex => [.readObject, .writeIndex, .released]
  | .readObject => [.readObject, .writeIndex, .released]
  | .writeIndex => [.writeObjects]
  | .writeObjects => [.released]
  | .released => []

def Stage.takes : Stage → List PageCall → Bool
  | .readIndex, [.readIndex _ _] => true
  | .readObject, [.readObject _ _] => true
  | .writeIndex, [.write ..] => true
  | .writeObjects, calls => calls.all fun c => match c with | .write .. => true | _ => false
  | .released, [] => true
  | _, _ => false

structure Transaction (I O : Type) where
  stage : Stage
  ops : List (PageOp I O)

inductive TxEv where
  | io (i : Nat) (e : IoEv)
  /-- the promises of the stage have settled, and the call goes on -/
  | goOn (stage : Stage) (calls : List PageCall)

def Transaction.start (path : Text) (file : Option Bytes) : Transaction I O :=
  { stage := .readIndex, ops := [.readIndex path (readPage path file)] }

variable (FI FO) in
def txStep (t : Transaction I O) : TxEv → Option (Transaction I O)
  | .io i e =>
    if t.ops.any PageOp.aborted then none
    else match t.ops[i]? with
      | none => none
      | some op => (opStep FI FO op e).map fun op => { t with ops := t.ops.set i op }
  | .goOn stage calls =>
    if t.ops.all (fun op => !op.aborted && op.calls == 1) && t.stage.next.contains stage && stage.takes calls then
      (calls.mapM PageCall.op).map fun ops => { stage, ops }
    else none

variable (FI FO) in
def TxUndisturbed (t : Transaction I O) : TxEv → Prop
  | .io i e => ∀ op ∈ t.ops[i]?, Undisturbed FI FO op e
  | .goOn _ _ => True

variable (FI FO) in
/-- Every page operation is on its way or has called back once; and with nothing left to happen
    the lock has been released. -/
structure Settles (t : Transaction I O) : Prop where
  ops : ∀ op ∈ t.ops, op.OnTheWay
  released : (∀ e, txStep FI FO t e = none) → t.stage = .released

theorem starts_ok (calls : List PageCall) :
    ∃ ops : List (PageOp I O), calls.mapM PageCall.op = some ops ∧ ∀ op ∈ ops, Kept op ∧ op.OnTheWay := by
  induction calls with
  | nil => exact ⟨[], rfl, by simp⟩
  | cons c calls ih =>
    obtain ⟨op, hop, hok⟩ := op_start (I := I) (O := O) c
    obtain ⟨ops, hops, hall⟩ := ih
    refine ⟨op :: ops, by simp [mapM_cons, hop, hops], ?_⟩
    intro x hx
    rcases mem_cons.mp hx with rfl | hx
    · exact hok
    · exact hall x hx

variable (FI FO) in
theorem op_progress (h : op.outstanding = true) : ∃ e op', opStep FI FO op e = some op' := by
  cases op with
  | readIndex path s =>
    have hr : s.stream.reading = true := h
    refine ⟨.read .failed, ?_⟩
    simp only [opStep, readStep, hr, if_true, map_some]
    exact ⟨_, rfl⟩
  | readObject path s =>
    have hr : s.stream.reading = true := h
    refine ⟨.read .failed, ?_⟩
    simp only [opStep, readStep, hr, if_true, map_some]
    exact ⟨_, rfl⟩
  | write s =>
    rcases (Bool.or_eq_true _ _).mp h with hw | hi
    · refine ⟨.write .failed, ?_⟩
      simp only [opStep, writeStep, hw, if_true, map_some]
      exact ⟨_, rfl⟩
    · refine ⟨.write .idle, ?_⟩
      simp only [opStep, writeStep, OutputFileStream.idleCb, hi, if_true, map_some]
      exact ⟨_, rfl⟩

theorem Stage.leaves (stage : Stage) : stage = .released ∨ ∃ next ∈ stage.next, next.takes [] = true := by
  cases stage with
  | readIndex => exact Or.inr ⟨.released, by decide, rfl⟩
  | readObject => exact Or.inr ⟨.released, by decide, rfl⟩
  | writeIndex => exact Or.inr ⟨.writeObjects, by decide, rfl⟩
  | writeObjects => exact Or.inr ⟨.released, by decide, rfl⟩
  | released => exact Or.inl rfl

variable {t : Transaction I O}

/-- An operation without a result to come has called back, so that the call goes on. -/
theorem settles_of_ops (h : ∀ op ∈ t.ops, op.OnTheWay) : Settles FI FO t := by
  refine ⟨h, fun hstuck => ?_⟩
  have halive : t.ops.any PageOp.aborted = false := List.any_eq_false.mpr fun op hop => by simp [(h op hop).1]
  have hquiet : ∀ op ∈ t.ops, op.outstanding = false := by
    intro op hop
    by_contra ho
    obtain ⟨i, hi⟩ := mem_iff_getElem?.mp hop
    obtain ⟨e, op', he⟩ := op_progress FI FO (Bool.not_eq_false _ ▸ ho)
    have := hstuck (.io i e)
    simp [txStep, halive, hi, he] at this
  have hcalled : t.ops.all (fun op => !op.aborted && op.calls == 1) = true := by
    refine List.all_eq_true.mpr fun op hop => ?_
    obtain ⟨ha, hc⟩ := h op hop
    rw [hquiet op hop] at hc
    simp [ha, hc]
  rcases t.stage.leaves with hr | ⟨next, hnext, htakes⟩
  · exact hr
  · have := hstuck (.goOn next [])
    simp [txStep, hcalled, hnext, htakes] at this

theorem tx_step {t' : Transaction I O} {e : TxEv} (hk : ∀ op ∈ t.ops, Kept op) (hs : txStep FI FO t e = some t') :
    (∀ op ∈ t'.ops, Kept op) ∧
      ((∀ op ∈ t.ops, op.OnTheWay) → ((∀ op ∈ t'.ops, op.OnTheWay) ↔ TxUndisturbed FI FO t e)) := by
  cases e with
  | goOn stage calls =>
    simp only [txStep] at hs
    split at hs
    · obtain ⟨ops, hops, rfl⟩ := map_eq_some_iff.mp hs
      obtain ⟨ops', hops', hall⟩ := starts_ok (I := I) (O := O) calls
      obtain rfl : ops = ops' := Option.some.inj (hops.symm.trans hops')
      exact ⟨fun op hop => (hall op hop).1, fun _ => ⟨fun _ => trivial, fun _ op hop => (hall op hop).2⟩⟩
    · cases hs
  | io i e =>
    simp only [txStep] at hs
    split at hs
    · cases hs
    split at hs
    · cases hs
    rename_i op hop
    obtain ⟨op', hop', rfl⟩ := map_eq_some_iff.mp hs
    have hmem := mem_of_getElem? hop
    obtain ⟨hkept, hiff⟩ := op_step_iff (hk op hmem) hop'
    refine ⟨fun x hx => ?_, fun hw => ?_⟩
    · rcases mem_or_eq_of_mem_set hx with hx | rfl
      · exact hk x hx
      · exact hkept
    · have hi : i < t.ops.length := (List.getElem?_eq_some_iff.mp hop).1
      simp only [TxUndisturbed, hop, mem_def, Option.some.injEq, forall_eq']
      rw [← hiff]
      constructor
      · intro h
        exact h op' (mem_set hi op')
      · intro h x hx
        rcases mem_or_eq_of_mem_set hx with hx | rfl
        · exact hw x hx
        · exact h

/-- All along a run every page operation calls back once, and the lock is released, exactly if
    no result of the run disturbs its operation. -/
theorem lock_released_iff (FI : PageFormat I) (FO : PageFormat O) (path : Text) (file : Option Bytes) {es : List TxEv}
    {t : Transaction I O} (hr : run (txStep FI FO) (.start path file) es = some t) :
    (∀ u, Reached (txStep FI FO) (.start path file) es u → Settles FI FO u) ↔
      Along (txStep FI FO) (TxUndisturbed FI FO) (.start path file) es := by
  have hstart : ∀ op ∈ (Transaction.start path file : Transaction I O).ops, Kept op ∧ op.OnTheWay := by
    intro op hop
    obtain ⟨op', hop', hok⟩ := op_start (I := I) (O := O) (.readIndex path file)
    cases hop'
    rw [mem_singleton.mp hop]
    exact hok
  have hiff := reached_iff_along (P := fun t : Transaction I O => ∀ op ∈ t.ops, op.OnTheWay) (A := fun _ _ => True)
    (fun s e s' hk _ hs => (tx_step hk hs).1) (fun s e s' hk _ hw hs => (tx_step hk hs).2 hw)
    (fun op hop => (hstart op hop).1) (fun op hop => (hstart op hop).2) (along_true _ es) hr
  rw [← hiff]
  exact ⟨fun h u hu => (h u hu).ops, fun h u hu => settles_of_ops (h u hu)⟩

end

/-- There is no index; an empty one is written, and the call leaves. -/
def emptyIndex : List TxEv :=
  [.goOn .writeIndex [.write (Serialized.single [7] (by decide)) (Serialized.single [1] (by decide)) (by decide)],
    .io 0 (.write .idle), .io 0 (.write (.wrote 1)), .io 0 (.write (.wrote 1)), .goOn .writeObjects [], .goOn .released []]

theorem lock_released_empty :
    ∃ t, run (txStep rawPages rawPages) (.start [] none) emptyIndex = some t ∧ t.stage = .released ∧ Settles rawPages rawPages t := by
  refine ⟨_, rfl, rfl, ?_⟩
  have hiff := @lock_released_iff _ _ rawPages rawPages [] none emptyIndex _ rfl
  refine hiff.mpr ⟨trivial, ?_, ?_, ?_, trivial, trivial, trivial⟩ _ ⟨_, prefix_rfl, rfl⟩
  all_goals
    intro op hop
    cases hop
    nofun

/-- The first write of the index page fails: nothing more can happen, and the lock is held. -/
theorem write_error_keeps_lock :
    ∃ t, run (txStep rawPages rawPages) (.start [] none)
        [.goOn .writeIndex [.write (Serialized.single [7] (by decide)) (Serialized.single [1] (by decide)) (by decide)],
          .io 0 (.write .idle), .io 0 (.write .failed)] = some t ∧
      t.stage = .writeIndex ∧ t.ops.map PageOp.outstanding = [false] ∧ t.ops.map PageOp.calls = [0] :=
  ⟨_, rfl, rfl, rfl, rfl⟩

end Aworker.Cache
