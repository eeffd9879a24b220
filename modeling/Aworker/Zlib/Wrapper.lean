/-
  Aworker.Zlib.Wrapper — one compression or decompression stream (src/zlib/zlib_wrapper.cc,
  zlib_task.cc, zip.cc, zip_task.cc, unzip.cc, unzip_task.cc), asynchronous.

  `Push` makes a task. One task at a time is handed to the macro task queue; the others wait
  in the wrapper's own queue, and `OnDone` hands over the next one after the callback has
  been called. The callback may push. When the stream ends or fails, `_running` is reset in
  the middle of that: from there on a push hands a task over at once, and so does `OnDone`,
  so that several tasks of the wrapper can be in the macro task queue together. All of them
  fail at their first tick.

  What deflate and inflate return is part of the event. `page` is the size of the buffer
  they write to. `line` are the wrapper's tasks in the macro task queue, and `busy` says that
  one of its tasks is in `OnDone`.

  - `push_ok` / `trigger_ok` / `tick_ok`: what `Push`, `TryTriggerNextTask` and a tick keep
    of `WrapperOk`.
-/

import Mathlib

namespace Aworker.Zlib

open List

abbrev Bytes := List UInt8

/-! ## Tasks -/

inductive Kind where
  | zip
  | unzip
  deriving DecidableEq

inductive Status where
  | ok
  | streamEnd
  | needDict
  | errno
  | streamError
  | dataError
  | memError
  | bufError
  | versionError
  deriving DecidableEq

def Status.code : Status → Int
  | .ok => 0
  | .streamEnd => 1
  | .needDict => 2
  | .errno => -1
  | .streamError => -2
  | .dataError => -3
  | .memError => -4
  | .bufError => -5
  | .versionError => -6

/-- `Z_FINISH` -/
def zFinish : Int := 4

/-- What a call of `deflate` or `inflate` leaves: its status, the chunk, and `stream->msg`. -/
structure LibResult where
  status : Status
  produced : Bytes
  msg : String := ""

structure ZlibTask where
  flush : Int
  prepared : Bool := false
  out : Bytes := []

/-- What was done with the `z_stream`. -/
inductive Touch where
  | init
  | prepare (push : Nat)
  /-- `deflate` or `inflate`, and how many callbacks had been called -/
  | call (push : Nat) (completed : Nat) (produced : Bytes)
  /-- `deflateEnd` or `inflateEnd` -/
  | close (push : Nat)

inductive Reply where
  | bytes (out : Bytes)
  | error (message : String)

/-- A wrapper; pushes are numbered. -/
structure Wrapper where
  kind : Kind
  taskQueue : List Nat := []
  /-- the task of each push -/
  tasks : List ZlibTask := []
  callbackMap : List Nat := []
  running : Bool := false
  errored : Bool := false
  finished : Bool := false
  error : String := ""
  inited : Bool := false
  ended : Bool := false
  /-- the callbacks that were called -/
  completed : List (Nat × Reply) := []
  stream : List Touch := []

/-- The text `snprintf` leaves in `error_msg`. -/
def failText (call : String) (status : Status) (msg : String) : String :=
  String.ofList ((call ++ " failed with status " ++ toString status.code ++ ", " ++ msg ++ ".").toList.take 127)

def libError (kind : Kind) (r : LibResult) : Option String :=
  match kind, r.status with
  | _, .streamError => some "unexpected end of file."
  | .zip, .bufError => some (failText "deflate()" .bufError r.msg)
  | .zip, .dataError => some (failText "deflate()" .dataError r.msg)
  | .zip, .memError => some (failText "deflate()" .memError r.msg)
  | .unzip, .needDict => some (failText "inflate()" .dataError r.msg)
  | .unzip, .dataError => some (failText "inflate()" .dataError r.msg)
  | .unzip, .memError => some (failText "inflate()" .memError r.msg)
  | _, _ => none

inductive Outcome where
  | failed (message : String)
  | done (all : Bool)
  | wait

/-- `OnWorkTick` after the call; `none` where its last `CHECK` fails. -/
def afterCall (kind : Kind) (page : Nat) (flush : Int) (r : LibResult) : Option Outcome :=
  match libError kind r with
  | some message => some (.failed message)
  | none =>
    if r.status = .streamEnd ∧ (kind = .zip → flush = zFinish) then some (.done true)
    else if r.produced.length ≠ page then some (.done false)
    else if r.status = .ok then some .wait
    else none

def alreadyDone : Kind → String
  | .zip => "Compression already done."
  | .unzip => "Uncompression already done."

def alreadyFailed : Kind → String
  | .zip => "Compression already failed."
  | .unzip => "Uncompression already failed."

/-- `Prepare` if it has not been called, and the call. -/
def called (w : Wrapper) (n : Nat) (task : ZlibTask) (r : LibResult) : Wrapper :=
  { w with
    tasks := w.tasks.set n { task with prepared := true }
    stream := w.stream ++ (if task.prepared then [] else [.prepare n]) ++ [.call n w.completed.length r.produced] }

/-- The same, with the chunk added to the task's output. -/
def concatenated (w : Wrapper) (n : Nat) (task : ZlibTask) (r : LibResult) : Wrapper :=
  { called w n task r with tasks := w.tasks.set n { task with prepared := true, out := task.out ++ r.produced } }

/-- `End`, called by task `n` -/
def Wrapper.finish (w : Wrapper) (n : Nat) : Wrapper :=
  { w with running := false, finished := true, ended := true, stream := w.stream ++ [.close n] }

def Wrapper.occurError (w : Wrapper) (n : Nat) (message : String) : Wrapper :=
  { w with running := false, errored := true, error := message, ended := true, stream := w.stream ++ [.close n] }

/-- The wrapper after a tick of task `n`, and what the task ends with if it does. -/
def onWorkTick (page : Nat) (w : Wrapper) (n : Nat) (task : ZlibTask) (r : LibResult) : Option (Wrapper × Option Reply) :=
  if w.finished then some (w, some (.error (alreadyDone w.kind)))
  else if w.errored then some (w, some (.error (alreadyFailed w.kind)))
  else
    match afterCall w.kind page task.flush r with
    | none => none
    | some (.failed message) => some (called w n task r, some (.error message))
    | some (.done true) => some ((concatenated w n task r).finish n, some (.bytes (task.out ++ r.produced)))
    | some (.done false) => some (concatenated w n task r, some (.bytes (task.out ++ r.produced)))
    | some .wait => some (concatenated w n task r, none)

def doTaskCallback (w : Wrapper) (n : Nat) (reply : Reply) : Wrapper :=
  if n ∈ w.callbackMap then { w with callbackMap := w.callbackMap.erase n, completed := w.completed ++ [(n, reply)] } else w

/-- `OnDone` up to and with the callback. -/
def onDone (w : Wrapper) (n : Nat) : Reply → Wrapper
  | .error message => doTaskCallback (if w.ended then w else w.occurError n message) n (.error message)
  | .bytes out => doTaskCallback w n (.bytes out)

/-- `Push` of a buffer that is not empty, until it looks at `_running`. -/
def pushed (w : Wrapper) (flush : Int) : Wrapper :=
  { w with
    inited := true
    stream := w.stream ++ if w.inited then [] else [.init]
    tasks := w.tasks ++ [{ flush }]
    callbackMap := w.callbackMap ++ [w.tasks.length]
    taskQueue := w.taskQueue ++ [w.tasks.length] }

/-- `Push`, and the push whose task is handed to the macro task queue. -/
def push (w : Wrapper) (flush : Int) : Wrapper × Option Nat :=
  if w.running then (pushed w flush, none)
  else
    match (pushed w flush).taskQueue with
    | [] => (pushed w flush, none)
    | m :: queue => ({ pushed w flush with running := true, taskQueue := queue }, some m)

def tryTriggerNextTask (w : Wrapper) : Wrapper × Option Nat :=
  match w.taskQueue with
  | m :: queue => ({ w with taskQueue := queue }, some m)
  | [] => ({ w with running := false }, none)

/-! ## What a wrapper keeps -/

/-- What the library has produced for push `n`. -/
def producedFor (n : Nat) : List Touch → Bytes
  | [] => []
  | .call m _ produced :: stream => if m = n then produced ++ producedFor n stream else producedFor n stream
  | _ :: stream => producedFor n stream

/-- The `z_stream` and the callbacks. -/
structure StreamOk (w : Wrapper) : Prop where
  /-- the library is called for a push when all earlier ones have completed -/
  calls : ∀ m completed produced, Touch.call m completed produced ∈ w.stream → completed = m ∧ m ≤ w.completed.length ∧ m < w.tasks.length
  numbered : w.completed.map Prod.fst = List.range w.completed.length
  bytes : ∀ m out, (m, Reply.bytes out) ∈ w.completed → out = producedFor m w.stream
  outs : ∀ m task, w.tasks[m]? = some task → w.completed.length ≤ m → task.out = producedFor m w.stream
  callbacks : ∀ m, m ∈ w.callbackMap ↔ w.completed.length ≤ m ∧ m < w.tasks.length
  once : w.callbackMap.Nodup
  started : w.inited = false → w.tasks = []
  flags : w.ended = (w.finished || w.errored)
  ends : w.ended = true → ∃ m, Touch.close m ∈ w.stream
  closedBy : ∀ m, Touch.close m ∈ w.stream → w.ended = true ∧ m < w.completed.length
  /-- the stream is not touched after its end, and who comes later gets an error -/
  closed : ∀ a m b, w.stream = a ++ Touch.close m :: b →
    b = [] ∧ ∀ k reply, (k, reply) ∈ w.completed → m < k → ∃ message, reply = .error message

structure LineOk (w : Wrapper) (line : List Nat) (busy : Bool) : Prop where
  order : w.completed.map Prod.fst ++ line ++ w.taskQueue = List.range w.tasks.length
  /-- who waits, waits for someone -/
  going : w.taskQueue ≠ [] → line ≠ [] ∨ busy = true
  handed : w.running = true → line ≠ [] ∨ busy = true
  single : w.ended = false → line.length + busy.toNat ≤ 1
  running : w.ended = false → line ≠ [] ∨ busy = true → w.running = true

theorem start_stream (kind : Kind) : StreamOk { kind } where
  calls := nofun
  numbered := rfl
  bytes := nofun
  outs := by simp
  callbacks := by simp
  once := nodup_nil
  started _ := rfl
  flags := rfl
  ends := nofun
  closedBy := nofun
  closed a m b h := by simp at h

theorem start_line (kind : Kind) : LineOk { kind } [] false where
  order := rfl
  going h := absurd rfl h
  handed := nofun
  single _ := Nat.zero_le _
  running _ h := by simp at h

variable {w : Wrapper} {line : List Nat} {busy : Bool} {n : Nat}

theorem StreamOk.isOpen (h : StreamOk w) (ho : w.ended = false) (m : Nat) : Touch.close m ∉ w.stream := by
  intro hm
  rw [(h.closedBy m hm).1] at ho
  cases ho

variable {reply : Reply}

theorem StreamOk.completed_lt (h : StreamOk w) (hm : (n, reply) ∈ w.completed) : n < w.completed.length := by
  have : n ∈ w.completed.map Prod.fst := mem_map_of_mem hm
  rwa [h.numbered, mem_range] at this

theorem LineOk.length (h : LineOk w line busy) : w.completed.length + (line.length + w.taskQueue.length) = w.tasks.length := by
  simpa using congrArg List.length h.order

theorem first_inLine (h : LineOk w (n :: line) busy) : n = w.completed.length ∧ n < w.tasks.length := by
  have hlen := h.length
  simp only [length_cons] at hlen
  have hlt : w.completed.length < w.tasks.length := by omega
  have hget := congrArg (·[w.completed.length]?) h.order
  simp [hlt] at hget
  exact ⟨hget, hget ▸ hlt⟩

theorem producedFor_append (n : Nat) (a b : List Touch) : producedFor n (a ++ b) = producedFor n a ++ producedFor n b := by
  induction a with
  | nil => rfl
  | cons x a ih =>
    cases x with
    | call m completed produced =>
      simp only [cons_append, producedFor, ih]
      split <;> simp
    | _ => exact ih

variable {stream : List Touch}

theorem producedFor_none (h : ∀ completed produced, Touch.call n completed produced ∉ stream) :
    producedFor n stream = [] := by
  induction stream with
  | nil => rfl
  | cons x stream ih =>
    have ih := ih fun completed produced hm => h completed produced (mem_cons_of_mem _ hm)
    cases x with
    | call m completed produced =>
      have hne : m ≠ n := by
        rintro rfl
        exact h completed produced mem_cons_self
      rw [producedFor, if_neg hne, ih]
    | _ => exact ih

variable {new : List Touch}

theorem producedFor_idle (h : ∀ completed produced, Touch.call n completed produced ∉ new)
    (stream : List Touch) : producedFor n (stream ++ new) = producedFor n stream := by
  rw [producedFor_append, producedFor_none h, append_nil]

/-! ## A push -/

theorem pushed_stream (h : StreamOk w) (hle : w.completed.length ≤ w.tasks.length) (flush : Int) : StreamOk (pushed w flush) := by
  have hmem : ∀ x ∈ (pushed w flush).stream, x ∈ w.stream ∨ x = .init := by
    intro x hx
    simp only [pushed, mem_append] at hx
    refine hx.imp_right fun hx => ?_
    split at hx
    · cases hx
    · exact mem_singleton.mp hx
  have hproduced : ∀ m, producedFor m (pushed w flush).stream = producedFor m w.stream := by
    intro m
    refine producedFor_idle (fun completed produced hm => ?_) _
    split at hm <;> simp at hm
  have hlen : (pushed w flush).tasks.length = w.tasks.length + 1 := by simp [pushed]
  refine ⟨fun m c p hm => ?_, h.numbered, fun m out hm => ?_, fun m task ht hm => ?_, fun m => ?_, ?_, nofun, h.flags,
    fun he => (h.ends he).imp fun m hm => mem_append_left _ hm, fun m hm => ?_, fun a m b he => ?_⟩
  · obtain ⟨hc, hle, hlt⟩ := h.calls m c p ((hmem _ hm).resolve_right nofun)
    exact ⟨hc, hle, by rw [hlen]; exact Nat.lt_succ_of_lt hlt⟩
  · rw [hproduced]; exact h.bytes m out hm
  · rw [hproduced]
    rcases Nat.lt_succ_iff_lt_or_eq.mp (hlen ▸ (List.getElem?_eq_some_iff.mp ht).1) with hlt | rfl
    · exact h.outs m task (by rwa [pushed, getElem?_append_left hlt] at ht) hm
    · obtain rfl : { flush } = task := by simpa [pushed] using ht
      exact (producedFor_none fun c p hc => Nat.lt_irrefl _ (h.calls _ c p hc).2.2).symm
  · simp only [pushed, mem_append, mem_singleton, h.callbacks, length_append, length_singleton]
    omega
  · refine List.Nodup.append h.once (nodup_singleton _) (disjoint_singleton.mpr fun hm => ?_)
    exact Nat.lt_irrefl _ ((h.callbacks _).mp hm).2
  · exact h.closedBy m ((hmem _ hm).resolve_right nofun)
  · cases hi : w.inited with
    | true =>
      simp only [pushed, hi, if_true, append_nil] at he
      exact h.closed a m b he
    | false =>
      have hm : Touch.close m ∈ w.stream := (hmem _ (by rw [he]; simp)).resolve_right nofun
      have := (h.closedBy m hm).2
      rw [h.started hi, length_nil] at hle
      omega

theorem push_stream (h : StreamOk w) (hl : LineOk w line busy) (flush : Int) : StreamOk (push w flush).1 := by
  have hle : w.completed.length ≤ w.tasks.length := by
    have := hl.length
    omega
  have hp := pushed_stream h hle flush
  unfold push
  split
  · exact hp
  · split
    · exact hp
    · exact { hp with }

theorem pushed_order (hl : LineOk w line busy) (flush : Int) :
    (pushed w flush).completed.map Prod.fst ++ line ++ (pushed w flush).taskQueue = List.range (pushed w flush).tasks.length := by
  simp only [pushed, length_append, length_singleton, range_succ, ← hl.order, append_assoc]

/-- While `_running` is not set, a push hands over the first task that waits. -/
theorem push_line (hl : LineOk w line busy) (flush : Int) :
    LineOk (push w flush).1 (line ++ (push w flush).2.toList) busy := by
  have horder := pushed_order hl flush
  unfold push
  split
  · next hrun =>
    simp only [Option.toList_none, append_nil]
    exact ⟨horder, fun _ => hl.handed hrun, hl.handed, hl.single, hl.running⟩
  · next hrun =>
    split
    · next hq => simp [pushed] at hq
    · next m queue hq =>
      have hne : line ++ [m] ≠ [] := by simp
      rw [hq] at horder
      refine ⟨?_, fun _ => Or.inl hne, fun _ => Or.inl hne, fun ho => ?_, fun _ _ => rfl⟩
      · simpa using horder
      · -- before the end `_running` is set as long as a task is in the macro task queue
        have hidle : ¬(line ≠ [] ∨ busy = true) := fun hb => hrun (hl.running ho hb)
        push Not at hidle
        simp [hidle.1, Bool.eq_false_of_not_eq_true hidle.2]

theorem trigger_stream (h : StreamOk w) : StreamOk (tryTriggerNextTask w).1 := by
  unfold tryTriggerNextTask
  split <;> exact { h with }

theorem trigger_line (hl : LineOk w line true) :
    LineOk (tryTriggerNextTask w).1 (line ++ (tryTriggerNextTask w).2.toList) false := by
  have hsingle : w.ended = false → line = [] := by
    intro ho
    have := hl.single ho
    simpa using this
  unfold tryTriggerNextTask
  split
  · next m queue hq =>
    have hne : line ++ [m] ≠ [] := by simp
    have horder := hl.order
    rw [hq] at horder
    refine ⟨by simpa using horder, fun _ => Or.inl hne, fun _ => Or.inl hne, fun ho => ?_, fun ho _ => hl.running ho (Or.inr rfl)⟩
    simp [hsingle ho]
  · next hq =>
    refine ⟨by simpa using hl.order, fun hne => absurd hq hne, nofun, fun ho => ?_, fun ho hb => ?_⟩
    · simp [hsingle ho]
    · simp [hsingle ho] at hb

/-! ## A tick -/

variable {task : ZlibTask} {r : LibResult}

theorem called_stream {x : Touch} (hx : x ∈ (called w n task r).stream) :
    x ∈ w.stream ∨ x = .prepare n ∨ x = .call n w.completed.length r.produced := by
  simp only [called, mem_append, mem_singleton, or_assoc] at hx
  refine hx.imp_right fun hx => hx.imp_left fun hx => ?_
  split at hx
  · cases hx
  · exact mem_singleton.mp hx

theorem called_producedFor (w : Wrapper) (n : Nat) (task : ZlibTask) (r : LibResult) (m : Nat) :
    producedFor m (called w n task r).stream = producedFor m w.stream ++ if n = m then r.produced else [] := by
  have hprepare : producedFor m (if task.prepared then [] else [.prepare n]) = [] := by
    split <;> rfl
  rw [called, producedFor_append, producedFor_append, hprepare, append_nil]
  simp only [producedFor, append_nil]

theorem concatenated_stream (h : StreamOk w) (ho : w.ended = false) (hn : n = w.completed.length)
    (ht : w.tasks[n]? = some task) (r : LibResult) : StreamOk (concatenated w n task r) := by
  have hlt := (List.getElem?_eq_some_iff.mp ht).1
  have hlen : (concatenated w n task r).tasks.length = w.tasks.length := length_set
  have hproduced := called_producedFor w n task r
  have hopen : ∀ m, Touch.close m ∉ (concatenated w n task r).stream := by
    intro m hm
    rcases called_stream hm with hm | hm | hm
    · exact h.isOpen ho m hm
    · cases hm
    · cases hm
  refine ⟨fun m c p hm => ?_, h.numbered, fun m out hm => ?_, fun m u hu hm => ?_, fun m => ?_, h.once, fun hi => ?_, h.flags,
    fun he => absurd ho (by simp [show w.ended = true from he]), fun m hm => absurd hm (hopen m), fun a m b he => absurd (he ▸ by simp) (hopen m)⟩
  · rw [hlen]
    rcases called_stream hm with hm | hm | hm
    · exact h.calls m c p hm
    · cases hm
    · cases hm
      exact ⟨hn.symm, Nat.le_of_eq hn, hlt⟩
  · have hne : n ≠ m := Nat.ne_of_gt (hn ▸ h.completed_lt hm)
    rw [concatenated, hproduced, if_neg hne, append_nil]
    exact h.bytes m out hm
  · rw [concatenated, hproduced]
    by_cases hnm : n = m
    · subst hnm
      obtain rfl : { task with prepared := true, out := task.out ++ r.produced } = u := by
        simpa [concatenated, hlt] using hu
      rw [if_pos rfl, ← h.outs n task ht (Nat.le_of_eq hn.symm)]
    · rw [if_neg hnm, append_nil]
      simp only [concatenated, getElem?_set_ne hnm] at hu
      exact h.outs m u hu hm
  · rw [hlen]
    exact h.callbacks m
  · rw [h.started hi] at hlt
    cases hlt

theorem answer_stream (h : StreamOk w) (hn : n = w.completed.length) (hlt : n < w.tasks.length)
    (hbytes : ∀ out, reply = .bytes out → out = producedFor n w.stream)
    (herror : w.ended = true → ∃ message, reply = .error message) : StreamOk (doTaskCallback w n reply) := by
  have hmem : n ∈ w.callbackMap := (h.callbacks n).mpr ⟨Nat.le_of_eq hn.symm, hlt⟩
  rw [doTaskCallback, if_pos hmem]
  have hlen : (w.completed ++ [(n, reply)]).length = w.completed.length + 1 := by simp
  refine ⟨fun m c p hm => ?_, ?_, fun m out hm => ?_, fun m task ht hm => ?_, fun m => ?_, h.once.erase n, h.started, h.flags,
    h.ends, fun m hm => ?_, fun a m b he => ?_⟩
  · obtain ⟨hc, hle, hlt⟩ := h.calls m c p hm
    exact ⟨hc, by rw [hlen]; exact Nat.le_succ_of_le hle, hlt⟩
  · rw [hlen, map_append, h.numbered, range_succ, ← hn]
    rfl
  · rcases mem_append.mp hm with hm | hm
    · exact h.bytes m out hm
    · cases mem_singleton.mp hm
      exact hbytes out rfl
  · rw [hlen] at hm
    exact h.outs m task ht (Nat.le_of_succ_le hm)
  · simp only [hlen, h.once.mem_erase_iff, h.callbacks]
    omega
  · obtain ⟨he, hle⟩ := h.closedBy m hm
    exact ⟨he, by rw [hlen]; exact Nat.lt_succ_of_lt hle⟩
  · obtain ⟨hb, hlater⟩ := h.closed a m b he
    refine ⟨hb, fun k reply' hm hmk => ?_⟩
    rcases mem_append.mp hm with hm | hm
    · exact hlater k reply' hm hmk
    · cases mem_singleton.mp hm
      exact herror (h.closedBy m (he ▸ by simp)).1

/-- The wrapper after `End` or `OccurError` of task `n`. -/
def Wrapper.closed (w : Wrapper) (n : Nat) (finished errored : Bool) (error : String) : Wrapper :=
  { w with running := false, finished, errored, error, ended := true, stream := w.stream ++ [.close n] }

theorem close_cases (hopen : ∀ m, Touch.close m ∉ stream) {a b : List Touch} {m : Nat}
    (he : stream ++ [.close n] = a ++ .close m :: b) : m = n ∧ b = [] := by
  rcases eq_nil_or_concat b with rfl | ⟨b, x, rfl⟩
  · have := (append_inj' he rfl).2
    simp_all
  · rw [concat_eq_append, ← cons_append, ← append_assoc] at he
    have hstream := (append_inj' he rfl).1
    exact absurd (hstream ▸ by simp) (hopen m)

variable {finished errored : Bool}

/-- The last push that was answered ends the stream. What its task has put out does not count any more. -/
theorem closed_stream (h : StreamOk w) (ho : w.ended = false) (hn : n + 1 = w.completed.length)
    (hflags : (finished || errored) = true) (error : String) (task : ZlibTask) :
    StreamOk (Wrapper.closed { w with tasks := w.tasks.set n task } n finished errored error) := by
  have hproduced : ∀ m, producedFor m (w.stream ++ [.close n]) = producedFor m w.stream := by
    intro m
    exact producedFor_idle (by simp) _
  refine ⟨fun m c p hm => ?_, h.numbered, fun m out hm => ?_, fun m u hu hm => ?_, fun m => ?_, h.once, fun hi => ?_, hflags.symm,
    fun _ => ⟨n, by simp [Wrapper.closed]⟩, fun m hm => ⟨rfl, ?_⟩, fun a m b he => ?_⟩
  · obtain ⟨hc, hle, hlt⟩ := h.calls m c p (by simpa [Wrapper.closed] using hm)
    exact ⟨hc, hle, by simpa [Wrapper.closed] using hlt⟩
  · rw [Wrapper.closed, hproduced]
    exact h.bytes m out hm
  · rw [Wrapper.closed, hproduced]
    have hne : n ≠ m := by
      simp only [Wrapper.closed] at hm
      omega
    simp only [Wrapper.closed, getElem?_set_ne hne] at hu
    exact h.outs m u hu hm
  · simpa [Wrapper.closed] using h.callbacks m
  · simp [Wrapper.closed, h.started hi]
  · rcases mem_append.mp hm with hm | hm
    · exact absurd hm (h.isOpen ho m)
    · cases mem_singleton.mp hm
      simp only [Wrapper.closed]
      omega
  · obtain ⟨rfl, hb⟩ := close_cases (h.isOpen ho) he
    refine ⟨hb, fun k reply hm hlt => ?_⟩
    have := h.completed_lt hm
    omega

theorem callback_closed (w : Wrapper) (n : Nat) (finished errored : Bool) (error : String) (reply : Reply) (tasks : List ZlibTask) :
    doTaskCallback (Wrapper.closed { w with tasks } n finished errored error) n reply =
      Wrapper.closed { doTaskCallback w n reply with tasks } n finished errored error := by
  by_cases h : n ∈ w.callbackMap <;> simp [doTaskCallback, Wrapper.closed, h]

theorem callback_line (h : StreamOk w) (hl : LineOk w (n :: line) false) (reply : Reply) :
    LineOk (doTaskCallback w n reply) line true := by
  obtain ⟨hn, hlt⟩ := first_inLine hl
  have hmem : n ∈ w.callbackMap := (h.callbacks n).mpr ⟨Nat.le_of_eq hn.symm, hlt⟩
  rw [doTaskCallback, if_pos hmem]
  refine ⟨?_, fun _ => Or.inr rfl, fun _ => Or.inr rfl, hl.single, fun ho _ => hl.running ho (Or.inl (cons_ne_nil _ _))⟩
  simpa using hl.order

theorem closed_line (hl : LineOk w line true) (n : Nat) (finished errored : Bool) (error : String) (task : ZlibTask) :
    LineOk (Wrapper.closed { w with tasks := w.tasks.set n task } n finished errored error) line true :=
  ⟨by simpa [Wrapper.closed] using hl.order, fun _ => Or.inr rfl, fun _ => Or.inr rfl, nofun, nofun⟩

theorem closing_ok (h : StreamOk w) (hl : LineOk w (n :: line) false) (ho : w.ended = false)
    (hbytes : ∀ out, reply = .bytes out → out = producedFor n w.stream)
    (hflags : (finished || errored) = true) (error : String) (task : ZlibTask) :
    StreamOk (doTaskCallback (Wrapper.closed { w with tasks := w.tasks.set n task } n finished errored error) n reply) ∧
      LineOk (doTaskCallback (Wrapper.closed { w with tasks := w.tasks.set n task } n finished errored error) n reply) line true := by
  obtain ⟨hn, hlt⟩ := first_inLine hl
  have hans := answer_stream h hn hlt hbytes fun he => by rw [ho] at he; cases he
  have hline := callback_line h hl reply
  have hmem : n ∈ w.callbackMap := (h.callbacks n).mpr ⟨Nat.le_of_eq hn.symm, hlt⟩
  have htasks : w.tasks.set n task = (doTaskCallback w n reply).tasks.set n task := by
    simp [doTaskCallback, hmem]
  rw [callback_closed, htasks]
  refine ⟨closed_stream hans ?_ ?_ hflags error task, closed_line hline n finished errored error task⟩
  · simpa [doTaskCallback, hmem] using ho
  · simpa [doTaskCallback, hmem] using hn

theorem ended_ok (h : StreamOk w) (hl : LineOk w (n :: line) false) (he : w.ended = true) (message : String) :
    StreamOk (onDone w n (.error message)) ∧ LineOk (onDone w n (.error message)) line true := by
  obtain ⟨hn, hlt⟩ := first_inLine hl
  rw [onDone, if_pos he]
  exact ⟨answer_stream h hn hlt nofun fun _ => ⟨message, rfl⟩, callback_line h hl _⟩

theorem concatenated_line (hl : LineOk w line busy) (n : Nat) (task : ZlibTask) (r : LibResult) :
    LineOk (concatenated w n task r) line busy :=
  ⟨by simpa [concatenated, called] using hl.order, hl.going, hl.handed, hl.single, hl.running⟩

variable {page : Nat} {w' : Wrapper}

/-- A tick of the first task in line, and `OnDone` if that was its last. -/
theorem tick_inLine (h : StreamOk w) (hl : LineOk w (n :: line) false) (ht : w.tasks[n]? = some task)
    {reply : Option Reply} (hs : onWorkTick page w n task r = some (w', reply)) :
    match reply with
    | none => StreamOk w' ∧ LineOk w' (n :: line) false ∧ line = []
    | some reply => StreamOk (onDone w' n reply) ∧ LineOk (onDone w' n reply) line true := by
  obtain ⟨hn, hlt⟩ := first_inLine hl
  unfold onWorkTick at hs
  split at hs
  · next hf =>
    cases hs
    exact ended_ok h hl (by rw [h.flags, hf, Bool.true_or]) _
  split at hs
  · next he =>
    cases hs
    exact ended_ok h hl (by rw [h.flags, he, Bool.or_true]) _
  next hf he =>
  have ho : w.ended = false := by
    rw [h.flags]
    simp [hf, he]
  have hc := concatenated_stream h ho hn ht r
  have hcl := concatenated_line hl n task r
  have hout : task.out ++ r.produced = producedFor n (concatenated w n task r).stream := by
    rw [concatenated, called_producedFor, if_pos rfl, ← h.outs n task ht (Nat.le_of_eq hn.symm)]
  split at hs
  · cases hs
  · next message _ =>
    cases hs
    have hend : (called w n task r).occurError n message = Wrapper.closed { concatenated w n task r with
        tasks := (concatenated w n task r).tasks.set n { task with prepared := true } } n w.finished true message := by
      simp [Wrapper.occurError, Wrapper.closed, concatenated, called]
    have hopen : ¬(called w n task r).ended = true := by simp [called, ho]
    simp only [onDone, if_neg hopen, hend]
    exact closing_ok hc hcl ho (fun out he => by cases he) (Bool.or_true _) _ _
  · cases hs
    have hend : (concatenated w n task r).finish n = Wrapper.closed { concatenated w n task r with
        tasks := (concatenated w n task r).tasks.set n { task with prepared := true, out := task.out ++ r.produced } }
        n true w.errored w.error := by
      simp [Wrapper.finish, Wrapper.closed, concatenated, called]
    simp only [onDone, hend]
    exact closing_ok hc hcl ho (fun out he => by cases he; exact hout) (Bool.true_or _) _ _
  · cases hs
    simp only [onDone]
    refine ⟨answer_stream hc hn (first_inLine hcl).2 (fun out he => by cases he; exact hout) fun he => ?_, callback_line hc hcl _⟩
    rw [show w.ended = true from he] at ho
    cases ho
  · cases hs
    refine ⟨hc, hcl, ?_⟩
    simpa using hl.single ho

/-! ## Errors -/

def ErrorsOk (w : Wrapper) : Prop := ∀ m message, (m, Reply.error message) ∈ w.completed → ∃ k ≤ m, Touch.close k ∈ w.stream

theorem ErrorsOk.extend (h : ErrorsOk w) (hc : w'.completed = w.completed)
    (hs : w'.stream = w.stream ++ new) : ErrorsOk w' := by
  intro m message hm
  obtain ⟨k, hk, hclose⟩ := h m message (hc ▸ hm)
  exact ⟨k, hk, by rw [hs]; exact mem_append_left _ hclose⟩

theorem push_errors (h : ErrorsOk w) (flush : Int) : ErrorsOk (push w flush).1 := by
  have hp : ErrorsOk (pushed w flush) := h.extend rfl rfl
  unfold push
  split
  · exact hp
  · split <;> exact hp

theorem trigger_errors (h : ErrorsOk w) : ErrorsOk (tryTriggerNextTask w).1 := by
  unfold tryTriggerNextTask
  split <;> exact h

theorem callback_errors (h : ErrorsOk w)
    (hend : ∀ message, reply = .error message → ∃ k ≤ n, Touch.close k ∈ w.stream) : ErrorsOk (doTaskCallback w n reply) := by
  unfold doTaskCallback
  split
  · intro m message hm
    rcases mem_append.mp hm with hm | hm
    · exact h m message hm
    · cases mem_singleton.mp hm
      exact hend message rfl
  · exact h

theorem onDone_errors (he : ErrorsOk w) (hend : w.ended = true → ∀ message, reply = .error message →
    ∃ k ≤ n, Touch.close k ∈ w.stream) : ErrorsOk (onDone w n reply) := by
  cases reply with
  | bytes out => exact callback_errors he nofun
  | error message =>
    by_cases ho : w.ended = true
    · rw [onDone, if_pos ho]
      exact callback_errors he (hend ho)
    · rw [onDone, if_neg ho]
      have hclosed : ErrorsOk (w.occurError n message) := he.extend rfl rfl
      exact callback_errors hclosed fun _ _ => ⟨n, Nat.le_refl n, by simp [Wrapper.occurError]⟩

theorem tick_errors (h : StreamOk w) (he : ErrorsOk w) (hn : n = w.completed.length)
    {reply : Option Reply} (hs : onWorkTick page w n task r = some (w', reply)) :
    match reply with
    | none => ErrorsOk w'
    | some reply => ErrorsOk (onDone w' n reply) := by
  have hended : w.ended = true → ∀ message : String, ∃ k ≤ n, Touch.close k ∈ w.stream := by
    intro hend _
    obtain ⟨k, hk⟩ := h.ends hend
    exact ⟨k, Nat.le_of_lt (hn ▸ (h.closedBy k hk).2), hk⟩
  have hcalled : ErrorsOk (called w n task r) := he.extend rfl (append_assoc ..)
  have hcat : ErrorsOk (concatenated w n task r) := hcalled
  unfold onWorkTick at hs
  split at hs
  · cases hs
    exact onDone_errors he fun hend message _ => hended hend message
  split at hs
  · cases hs
    exact onDone_errors he fun hend message _ => hended hend message
  next hf hr =>
  split at hs
  · cases hs
  · cases hs
    refine onDone_errors hcalled fun hend message _ => ?_
    obtain ⟨k, hk, hc⟩ := hended hend message
    exact ⟨k, hk, mem_append_left _ (mem_append_left _ hc)⟩
  · cases hs
    have hfinish : ErrorsOk ((concatenated w n task r).finish n) := hcat.extend rfl rfl
    exact onDone_errors hfinish fun _ message hm => by cases hm
  · cases hs
    exact onDone_errors hcat fun _ message hm => by cases hm
  · cases hs
    exact hcat

/-! ## All of it -/

structure WrapperOk (w : Wrapper) (line : List Nat) (busy : Bool) : Prop where
  stream : StreamOk w
  errors : ErrorsOk w
  line : LineOk w line busy

theorem start_ok (kind : Kind) : WrapperOk { kind } [] false := ⟨start_stream kind, nofun, start_line kind⟩

theorem push_ok (h : WrapperOk w line busy) (flush : Int) : WrapperOk (push w flush).1 (line ++ (push w flush).2.toList) busy :=
  ⟨push_stream h.stream h.line flush, push_errors h.errors flush, push_line h.line flush⟩

theorem trigger_ok (h : WrapperOk w line true) :
    WrapperOk (tryTriggerNextTask w).1 (line ++ (tryTriggerNextTask w).2.toList) false :=
  ⟨trigger_stream h.stream, trigger_errors h.errors, trigger_line h.line⟩

theorem tick_ok (h : WrapperOk w (n :: line) false) (ht : w.tasks[n]? = some task)
    {reply : Option Reply} (hs : onWorkTick page w n task r = some (w', reply)) :
    match reply with
    | none => WrapperOk w' (n :: line) false ∧ line = []
    | some reply => WrapperOk (onDone w' n reply) line true := by
  have htick := tick_inLine h.stream h.line ht hs
  have herr := tick_errors h.stream h.errors (first_inLine h.line).1 hs
  cases reply with
  | none => exact ⟨⟨htick.1, herr, htick.2.1⟩, htick.2.2⟩
  | some reply => exact ⟨htick.1, herr, htick.2⟩

end Aworker.Zlib
