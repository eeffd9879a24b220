/-
  Aworker.AgentChannel.Streaming — a stream on its way to the agent (lib/agent_channel.js:
  `pipeStreamsToAgent`, `streamPush`, `call`; noslated_data_channel.cc: `JsCall`,
  `CallStreamPush`).

  Each chunk is pushed as it is read, and one more push ends the stream; the `catch` clause
  around the loop ends it as an error, whether it was the stream that failed or a push. A chunk
  that is `undefined` or `null` is meant to be passed over (`noop for undefined`), but the push
  after the branch is made all the same, of a `buffer` that was never assigned, and `streamPush`
  throws.

  A stream id may be missing. `CallStreamPush` then writes 0.

  `World` has what was sent. A stream is what reading it to its end gives; the text encoder is a
  parameter.

  (1) `pipe_sent`: what is sent, for every stream with an id.
  (2) `pipe_exact_iff`; (3) `pipe_none_iff`.
-/

import Mathlib
import Aworker.Lib.Effects
import Aworker.Fetch.Js
import Aworker.AgentChannel.StreamTable

namespace Aworker.AgentChannel.Streaming

open Aworker.Lib
open Aworker.Fetch (Text Bytes)

/-! ## Pushes -/

/-- `R` are the reasons streams fail for. -/
inductive Thrown (R : Type) where
  | typeError (message : Text)
  | error (message : Text)
  | reason (r : R)

/-- `StreamPushRequestMessage` -/
structure StreamPush where
  sid : Sid
  isEos : Bool
  isError : Bool
  data : Bytes
  deriving DecidableEq

structure World where
  /-- `agent_data_channel()` is set up -/
  agent : Bool
  sent : List StreamPush := []

/-- What `streamPush` may be given; `none` is the contents of a buffer that was transferred. -/
inductive BufferOrView where
  | undefined
  | uint8Array (bytes : Bytes)
  | view (bytes : Option Bytes)
  | arrayBuffer (bytes : Option Bytes)

variable {R : Type}

/-- `new Uint8Array(buffer)` -/
def newUint8Array : Option Bytes → Except (Thrown R) Bytes
  | some bytes => .ok bytes
  | none => .error (.typeError "Cannot perform Construct on a detached ArrayBuffer".toList)

def BufferOrView.toUint8Array : BufferOrView → Except (Thrown R) Bytes
  | .uint8Array bytes => .ok bytes
  | .view bytes => newUint8Array bytes
  | .arrayBuffer bytes => newUint8Array bytes
  | .undefined => .error (.typeError "expecting Uint8Array".toList)

/-- `CallStreamPush`: `Uint32Value` of `null` and `undefined` is 0, and the end carries no data. -/
def message (sid : Option Sid) (isEos isError : Bool) (data : Bytes) : StreamPush :=
  { sid := sid.getD 0, isEos, isError, data := if isEos then [] else data }

abbrev Pipe (R α : Type) : Type := Eff (Thrown R) World α

def call (m : StreamPush) : Pipe R Unit := do
  let w ← getThe World
  throwIf (w.agent = false) (.error "Cannot invoke agent methods when agent is not setup".toList)
  modify fun w => { w with sent := w.sent ++ [m] }

def streamPush (sid : Option Sid) (isEos : Bool) (bufferOrView : BufferOrView) (isError : Bool) : Pipe R Unit := do
  let data ← ofExcept bufferOrView.toUint8Array
  call (message sid isEos isError data)

/-! ## Streams -/

variable {S : Type}

/-- A value that was read; `S` are the strings. -/
inductive Chunk (S : Type) where
  | string (s : S)
  /-- `none`: it was transferred -/
  | arrayBuffer (bytes : Option Bytes)
  | uint8Array (bytes : Bytes)
  /-- `undefined` or `null` -/
  | nil
  | other (truthy : Bool)

inductive End (R : Type) where
  | closed
  | errored (reason : R)

def End.isError : End R → Bool
  | .closed => false
  | .errored _ => true

structure Source (S R : Type) where
  /-- somebody has a reader -/
  locked : Bool := false
  chunks : List (Chunk S)
  fin : End R

variable (encode : S → Bytes)

/-- The branches on `value`. -/
def Chunk.buffer : Chunk S → Except (Thrown R) BufferOrView
  | .string s => .ok (.uint8Array (encode s))
  | .arrayBuffer bytes => (newUint8Array bytes).map .uint8Array
  | .uint8Array bytes => .ok (.uint8Array bytes)
  | .nil => .ok .undefined
  | .other false => .ok .undefined
  | .other true => .error (.typeError "unhandled type on stream read".toList)

def pushLoop (sid : Option Sid) (fin : End R) : List (Chunk S) → Pipe R Unit
  | [] =>
    match fin with
    | .closed => pure ()
    | .errored reason => throw (.reason reason)
  | value :: chunks => do
    let buffer ← ofExcept (value.buffer encode)
    streamPush sid false buffer false
    pushLoop sid fin chunks

/-- `reader`: the caller has one for this stream already. -/
def pipeStreamsToAgent (sid : Option Sid) (readableStream : Option (Source S R)) (reader : Bool) : Pipe R Unit :=
  match readableStream with
  | none => streamPush sid true (.uint8Array []) false
  | some stream => do
    throwIf (reader = false ∧ stream.locked = true) (.typeError "stream is locked.".toList)
    match sid with
    | none =>
      -- exhaust stream
      match stream.fin with
      | .closed => pure ()
      | .errored reason => throw (.reason reason)
    | some sid =>
      tryCatch (do
        pushLoop encode (some sid) stream.fin stream.chunks
        streamPush (some sid) true (.uint8Array []) false)
        fun _ => streamPush (some sid) true (.uint8Array []) true

/-! ## What is sent -/

variable {w : World}

theorem call_sent (m : StreamPush) (hw : w.agent = true) :
    exec (call m : Pipe R Unit) w = (.ok (), { w with sent := w.sent ++ [m] }) := by
  unfold call
  rw [exec_bind_ok (exec_get w), exec_throwIf_bind, if_neg (by simp [hw])]
  rfl

theorem call_unsent (m : StreamPush) (hw : w.agent = false) : ∃ e, exec (call m : Pipe R Unit) w = (.error e, w) := by
  unfold call
  rw [exec_bind_ok (exec_get w), exec_throwIf_bind, if_pos hw]
  exact ⟨_, rfl⟩

theorem streamPush_sent (sid : Option Sid) (isEos : Bool) (bytes : Bytes) (isError : Bool) (hw : w.agent = true) :
    exec (streamPush sid isEos (.uint8Array bytes) isError : Pipe R Unit) w =
      (.ok (), { w with sent := w.sent ++ [message sid isEos isError bytes] }) :=
  call_sent _ hw

theorem streamPush_unsent (sid : Option Sid) (isEos : Bool) (data : BufferOrView) (isError : Bool) (hw : w.agent = false) :
    ∃ e, exec (streamPush sid isEos data isError : Pipe R Unit) w = (.error e, w) := by
  unfold streamPush
  rw [exec_bind, exec_ofExcept]
  cases (data.toUint8Array : Except (Thrown R) Bytes) with
  | error e => exact ⟨e, rfl⟩
  | ok bytes => exact call_unsent _ hw

def Chunk.pushed : Chunk S → Option Bytes
  | .string s => some (encode s)
  | .arrayBuffer bytes => bytes
  | .uint8Array bytes => some bytes
  | .nil | .other _ => none

def pushable (chunks : List (Chunk S)) : List (Chunk S) := chunks.takeWhile fun c => (c.pushed encode).isSome

variable {c : Chunk S} {bytes : Bytes}

theorem buffer_pushed (h : c.pushed encode = some bytes) :
    (c.buffer encode : Except (Thrown R) BufferOrView) = .ok (.uint8Array bytes) := by
  cases c with
  | string s => exact congrArg (Except.ok ∘ BufferOrView.uint8Array) (Option.some.inj h)
  | arrayBuffer b =>
    have h : b = some bytes := h
    rw [h]
    rfl
  | uint8Array b => exact congrArg (Except.ok ∘ BufferOrView.uint8Array) (Option.some.inj h)
  | nil => cases h
  | other truthy => cases h

/-- A chunk that cannot be pushed throws, in its branch or in `streamPush`. -/
theorem push_unpushed (sid : Option Sid) (h : c.pushed encode = none) (w : World) :
    ∃ e, exec (ofExcept (c.buffer encode) >>= fun buffer => streamPush sid false buffer false : Pipe R Unit) w = (.error e, w) := by
  cases c with
  | string s => cases h
  | arrayBuffer b =>
    have h : b = none := h
    rw [h]
    exact ⟨_, rfl⟩
  | uint8Array b => cases h
  | nil => exact ⟨_, rfl⟩
  | other truthy => cases truthy <;> exact ⟨_, rfl⟩

def dataPush (sid : Sid) (bytes : Bytes) : StreamPush := message (some sid) false false bytes

def endPush (sid : Sid) (isError : Bool) : StreamPush := message (some sid) true isError []

/-- The loop pushes what it can, and ends well if that is all and the stream does. -/
theorem pushLoop_sent (sid : Sid) (fin : End R) (chunks : List (Chunk S)) (hw : w.agent = true) :
    ∃ r, exec (pushLoop encode (some sid) fin chunks) w =
        (r, { w with sent := w.sent ++ ((pushable encode chunks).filterMap (Chunk.pushed encode)).map (dataPush sid) }) ∧
      (r = .ok () ↔ chunks.all (fun c => (c.pushed encode).isSome) = true ∧ fin.isError = false) := by
  induction chunks generalizing w with
  | nil =>
    cases fin with
    | closed => exact ⟨.ok (), by simp [pushLoop, pushable], by simp [End.isError]⟩
    | errored reason => exact ⟨.error (.reason reason), by simp [pushLoop, pushable], by simp [End.isError]⟩
  | cons c chunks ih =>
    unfold pushLoop
    cases hc : c.pushed encode with
    | none =>
      obtain ⟨e, he⟩ := push_unpushed (R := R) encode (some sid) hc w
      have hstop : pushable encode (c :: chunks) = [] := by simp [pushable, hc]
      rw [hstop]
      refine ⟨.error e, ?_, by simp [hc]⟩
      rw [← bind_assoc]
      simpa using exec_bind_error he
    | some bytes =>
      have hgo : pushable encode (c :: chunks) = c :: pushable encode chunks := by simp [pushable, hc]
      obtain ⟨r, hr, hiff⟩ := ih (w := { w with sent := w.sent ++ [dataPush sid bytes] }) hw
      refine ⟨r, ?_, ?_⟩
      · rw [buffer_pushed encode hc, exec_bind_ok (exec_ofExcept _ w), exec_bind_ok (streamPush_sent _ _ _ _ hw), hgo]
        simpa [hc, dataPush] using hr
      · rw [hiff]
        simp [hc]

/-- The loop, or the `catch` clause, ended as an error. -/
def Source.fails (stream : Source S R) : Bool := !(stream.chunks.all fun c => (c.pushed encode).isSome) || stream.fin.isError

theorem pipe_sent (sid : Sid) (stream : Source S R) (reader : Bool) (hw : w.agent = true)
    (hreader : ¬(reader = false ∧ stream.locked = true)) :
    exec (pipeStreamsToAgent encode (some sid) (some stream) reader) w =
      (.ok (), { w with sent := w.sent ++ (((pushable encode stream.chunks).filterMap (Chunk.pushed encode)).map (dataPush sid) ++
        [endPush sid (stream.fails encode)]) }) := by
  obtain ⟨r, hr, hiff⟩ := pushLoop_sent encode sid stream.fin stream.chunks hw
  unfold pipeStreamsToAgent
  rw [exec_throwIf_bind, if_neg hreader, exec_tryCatch]
  cases r with
  | ok u =>
    obtain ⟨hall, hfin⟩ := hiff.mp rfl
    have hfails : stream.fails encode = false := by simp [Source.fails, hall, hfin]
    rw [exec_bind_ok hr, hfails, ← List.append_assoc]
    have hend := streamPush_sent (R := R) (some sid) true [] false
      (w := { w with sent := w.sent ++ ((pushable encode stream.chunks).filterMap (Chunk.pushed encode)).map (dataPush sid) }) hw
    rw [hend]
    rfl
  | error e =>
    have hfails : stream.fails encode = true := by
      by_contra hno
      have hno : stream.chunks.all (fun c => (c.pushed encode).isSome) = true ∧ stream.fin.isError = false := by
        simpa [Source.fails, Option.isSome_iff_ne_none] using hno
      cases hiff.mpr hno
    rw [exec_bind_error hr, hfails, ← List.append_assoc]
    exact streamPush_sent _ _ _ _ hw

theorem pushLoop_unsent (sid : Option Sid) (fin : End R) (chunks : List (Chunk S)) (hw : w.agent = false) :
    ∃ r, exec (pushLoop encode sid fin chunks) w = (r, w) := by
  cases chunks with
  | nil => cases fin <;> exact ⟨_, rfl⟩
  | cons c chunks =>
    unfold pushLoop
    rw [exec_bind, exec_ofExcept]
    cases (c.buffer encode : Except (Thrown R) BufferOrView) with
    | error e => exact ⟨_, rfl⟩
    | ok buffer =>
      obtain ⟨e, he⟩ := streamPush_unsent (R := R) sid false buffer false hw
      exact ⟨_, exec_bind_error he⟩

theorem pipe_unsent (sid : Option Sid) (readableStream : Option (Source S R)) (reader : Bool) (hw : w.agent = false) :
    ∃ r, exec (pipeStreamsToAgent encode sid readableStream reader) w = (r, w) := by
  obtain ⟨e, hend⟩ := streamPush_unsent (R := R) sid true (.uint8Array []) false hw
  cases readableStream with
  | none => exact ⟨_, hend⟩
  | some stream =>
    unfold pipeStreamsToAgent
    rw [exec_throwIf_bind]
    split
    · exact ⟨_, rfl⟩
    cases sid with
    | none => cases stream.fin <;> exact ⟨_, rfl⟩
    | some sid =>
      obtain ⟨e', herr⟩ := streamPush_unsent (R := R) (some sid) true (.uint8Array []) true hw
      obtain ⟨r, hr⟩ := pushLoop_unsent encode (some sid) stream.fin stream.chunks hw
      simp only [exec_tryCatch]
      cases r with
      | error err =>
        rw [exec_bind_error hr]
        exact ⟨_, herr⟩
      | ok u =>
        rw [exec_bind_ok hr, hend]
        exact ⟨_, herr⟩

/-! ## What should be sent -/

/-- The bytes of a chunk that is not nil. -/
def Chunk.contents : Chunk S → Option Bytes
  | .string s => some (encode s)
  | .arrayBuffer bytes => some (bytes.getD [])
  | .uint8Array bytes => some bytes
  | .nil | .other _ => none

/-- One push for each chunk that is not nil, and one for the end. -/
def wanted (sid : Sid) (stream : Source S R) : List StreamPush :=
  (stream.chunks.filterMap (Chunk.contents encode)).map (dataPush sid) ++ [endPush sid stream.fin.isError]

theorem contents_of_pushed (h : c.pushed encode = some bytes) : c.contents encode = some bytes := by
  cases c with
  | string s => exact h
  | arrayBuffer b =>
    have h : b = some bytes := h
    rw [h]
    rfl
  | uint8Array b => exact h
  | nil => cases h
  | other truthy => cases h

theorem dataPush_injective (sid : Sid) : Function.Injective (dataPush sid) := by
  intro a b h
  exact congrArg StreamPush.data h

theorem endPush_injective (sid : Sid) : Function.Injective (endPush sid) := by
  intro a b h
  exact congrArg StreamPush.isError h

theorem pushable_contents (chunks : List (Chunk S)) :
    (pushable encode chunks).filterMap (Chunk.pushed encode) = chunks.filterMap (Chunk.contents encode) ↔
      ∀ c ∈ chunks.dropWhile (fun c => (c.pushed encode).isSome), c.contents encode = none := by
  have hfront : (pushable encode chunks).filterMap (Chunk.pushed encode) = (pushable encode chunks).filterMap (Chunk.contents encode) := by
    apply List.filterMap_congr
    intro c hc
    have hsome : (c.pushed encode).isSome = true := List.mem_takeWhile_imp (p := fun c => (Chunk.pushed encode c).isSome) hc
    obtain ⟨bytes, hb⟩ := Option.isSome_iff_exists.mp hsome
    rw [hb, contents_of_pushed encode hb]
  have hsplit : chunks.filterMap (Chunk.contents encode) = (pushable encode chunks).filterMap (Chunk.contents encode) ++
      (chunks.dropWhile fun c => (c.pushed encode).isSome).filterMap (Chunk.contents encode) := by
    rw [← List.filterMap_append, pushable, List.takeWhile_append_dropWhile]
  rw [hfront, hsplit, List.self_eq_append_right, List.filterMap_eq_nil_iff]

/-- When the loop sends what should be sent. -/
structure Orderly (w : World) (stream : Source S R) (reader : Bool) : Prop where
  agent : w.agent = true
  readable : reader = false → stream.locked = false
  /-- nothing but nil comes after the first chunk that cannot be pushed -/
  rest : ∀ c ∈ stream.chunks.dropWhile (fun c => (c.pushed encode).isSome), c.contents encode = none
  /-- and there is no such chunk if the stream ends well -/
  whole : stream.fin.isError = false → ∀ c ∈ stream.chunks, (c.pushed encode).isSome

theorem fails_eq_iff (stream : Source S R) :
    stream.fails encode = stream.fin.isError ↔ (stream.fin.isError = false → ∀ c ∈ stream.chunks, (c.pushed encode).isSome) := by
  unfold Source.fails
  cases stream.fin.isError with
  | true => simp
  | false => simp [Option.isSome_iff_ne_none]

/-- Every stream with an id: each chunk that is not nil is pushed in its turn, with its bytes, and
    then the end, as an error exactly if the stream ended with one. -/
theorem pipe_exact_iff (sid : Sid) (stream : Source S R) (reader : Bool) (w : World) :
    (exec (pipeStreamsToAgent encode (some sid) (some stream) reader) w).2.sent = w.sent ++ wanted encode sid stream ↔
      Orderly encode w stream reader := by
  by_cases hreader : reader = false ∧ stream.locked = true
  · -- `getReader` throws
    have hnone : (exec (pipeStreamsToAgent encode (some sid) (some stream) reader) w).2.sent = w.sent := by
      unfold pipeStreamsToAgent
      rw [exec_throwIf_bind, if_pos hreader]
    rw [hnone]
    refine iff_of_false ?_ ?_
    · simp [wanted]
    · intro h
      rw [h.readable hreader.1] at hreader
      cases hreader.2
  cases hw : w.agent with
  | false =>
    obtain ⟨r, hr⟩ := pipe_unsent encode (some sid) (some stream) reader hw
    rw [hr]
    refine iff_of_false ?_ ?_
    · simp [wanted]
    · intro h
      rw [h.agent] at hw
      cases hw
  | true =>
    have hlocked : reader = false → stream.locked = false := fun hr => Bool.eq_false_iff.mpr fun hl => hreader ⟨hr, hl⟩
    rw [pipe_sent encode sid stream reader hw hreader, wanted, List.append_cancel_left_eq]
    constructor
    · intro heq
      obtain ⟨hdata, hend⟩ := List.append_inj' heq rfl
      exact {
        agent := hw
        readable := hlocked
        rest := (pushable_contents encode stream.chunks).mp ((dataPush_injective sid).list_map hdata)
        whole := (fails_eq_iff encode stream).mp (endPush_injective sid (List.singleton_inj.mp hend)) }
    · intro h
      rw [(pushable_contents encode stream.chunks).mpr h.rest, (fails_eq_iff encode stream).mpr h.whole]

/-- A nil chunk between two others: the second one is not sent, and the end is an error. -/
theorem nil_ends_stream :
    let stream : Source Bytes Unit := { chunks := [.uint8Array [1], .nil, .string [2]], fin := .closed }
    (exec (pipeStreamsToAgent id (some 7) (some stream) false) { agent := true }).2.sent = [dataPush 7 [1], endPush 7 true] ∧
      wanted id 7 stream = [dataPush 7 [1], dataPush 7 [2], endPush 7 false] :=
  ⟨rfl, rfl⟩

/-! ## Without an id, without a body -/

theorem exhaust_sent (stream : Source S R) (reader : Bool) (w : World) :
    ∃ r, exec (pipeStreamsToAgent encode none (some stream) reader) w = (r, w) := by
  unfold pipeStreamsToAgent
  rw [exec_throwIf_bind]
  split
  · exact ⟨_, rfl⟩
  · cases stream.fin <;> exact ⟨_, rfl⟩

theorem pipe_null (sid : Option Sid) (reader : Bool) (hw : w.agent = true) :
    exec (pipeStreamsToAgent encode sid (none : Option (Source S R)) reader) w =
      (.ok (), { w with sent := w.sent ++ [endPush (sid.getD 0) false] }) :=
  streamPush_sent sid true [] false hw

/-- Without an id something is sent exactly if there is no body. -/
theorem pipe_none_iff (readableStream : Option (Source S R)) (reader : Bool) (hw : w.agent = true) :
    (exec (pipeStreamsToAgent encode none readableStream reader) w).2.sent = w.sent ↔ readableStream.isSome := by
  cases readableStream with
  | none =>
    rw [pipe_null encode none reader hw]
    simp
  | some stream =>
    obtain ⟨r, hr⟩ := exhaust_sent encode stream reader w
    rw [hr]
    simp

end Aworker.AgentChannel.Streaming
