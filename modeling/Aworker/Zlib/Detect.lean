/-
  Aworker.Zlib.Detect — how an asynchronous `UnzipWrapper` finds out what it is given
  (src/zlib/unzip.cc: `UnzipWrapper::Push`, `Init`; src/zlib/zlib_task.cc: `Prepare`).

  A wrapper of type UNZIP looks at the first two octets, wherever the pushes cut them. If the
  first push is the single octet 1F, its task is parked and put in front of the next one. The
  type decides the window bits, so `inflateInit2` waits for it. Whether `inflateInit2` succeeds and
  what a tick comes to is part of the event. `line` are the wrapper's tasks in the macro task
  queue, of which any may be ticked, and `busy` says that one of them is in `OnDone`.

  Main result: `detected`. The type is that of the first two octets, `inflateInit2` is called
  once, for it, and `inflate` gets the stream in order, up to where it ends or fails.
-/

import Mathlib
import Aworker.Lib.Run
import Aworker.Zlib.Wrapper

namespace Aworker.Zlib.Detect

open Aworker.Lib List Option

/-! ## The wrapper -/

inductive UnzipType where
  | gunzip
  | inflate
  | unzip
  deriving DecidableEq

/-- `UnzipFirstTwoBytesParsedStatus` -/
inductive ParsedStatus where
  | nonParsed
  | firstParsed
  | secondParsed
  deriving DecidableEq

structure Task where
  input : Bytes
  prepared : Bool := false
  deriving DecidableEq

structure UnzipWrapper where
  type : UnzipType
  windowBits : Int
  parsed : ParsedStatus := .nonParsed
  headTask : Option Bytes := none
  inited : Bool := false
  /-- the window bits of the calls of `inflateInit2` -/
  inits : List Int := []
  taskQueue : List Bytes := []
  running : Bool := false
  line : List Task := []
  busy : Bool := false
  finished : Bool := false
  errored : Bool := false
  /-- the input of each `Prepare` -/
  presented : List Bytes := []
  deriving DecidableEq

inductive Ev where
  | push (chunk : Bytes) (initOk : Bool)
  /-- `OnWorkTick` of a task in line, and `OnDone` up to and with the callback -/
  | tick (k : Nat) (outcome : Outcome)
  | doneReturned

def gzipHeaderId1 : UInt8 := 0x1f
def gzipHeaderId2 : UInt8 := 0x8b

def secondType (b : Option UInt8) : UnzipType := if b = some gzipHeaderId2 then .gunzip else .inflate

/-- The `switch` of `Push`: the wrapper, and whether the task is parked. `none` is `UNREACHABLE`. -/
def detect (w : UnzipWrapper) (chunk : Bytes) : Option (UnzipWrapper × Bool) :=
  if w.type = .unzip then
    match w.parsed with
    | .nonParsed =>
      if chunk.head? = some gzipHeaderId1 then
        if chunk.length = 1 then some ({ w with parsed := .firstParsed, headTask := some chunk }, true)
        else some ({ w with parsed := .secondParsed, type := secondType chunk[1]? }, false)
      else some ({ w with type := .inflate }, false)
    | .firstParsed => some ({ w with parsed := .secondParsed, type := secondType chunk[0]? }, false)
    | .secondParsed => none
  else some (w, false)

/-- `Init` -/
def UnzipWrapper.init (w : UnzipWrapper) : UnzipWrapper :=
  { w with inited := true, inits := w.inits ++ [if w.type = .gunzip then w.windowBits + 16 else w.windowBits] }

/-- The tasks go into the queue, and the first of it into the macro task queue. -/
def UnzipWrapper.enqueue (w : UnzipWrapper) (chunk : Bytes) : UnzipWrapper :=
  let taskQueue := w.taskQueue ++ w.headTask.toList ++ [chunk]
  if w.running then { w with headTask := none, taskQueue }
  else { w with headTask := none, running := true, line := w.line ++ (taskQueue.take 1).map fun input => { input }, taskQueue := taskQueue.drop 1 }

def push (w : UnzipWrapper) (chunk : Bytes) (initOk : Bool) : Option UnzipWrapper :=
  -- the callback gets an empty result at once
  if chunk = [] then some w
  else
    match detect w chunk with
    | none => none
    | some (w, true) => some w
    | some (w, false) =>
      if w.inited then some (w.enqueue chunk)
      -- `Push` throws, and the task is gone
      else if initOk then some (w.init.enqueue chunk)
      else some w.init

def UnzipWrapper.ended (w : UnzipWrapper) : Bool := w.finished || w.errored

/-- `Prepare`, if it has not been called. -/
def UnzipWrapper.prepare (w : UnzipWrapper) (task : Task) : UnzipWrapper :=
  if task.prepared then w else { w with presented := w.presented ++ [task.input] }

def tick (w : UnzipWrapper) (k : Nat) (task : Task) : Outcome → UnzipWrapper
  | .wait => { w.prepare task with line := w.line.set k { task with prepared := true } }
  | .done false => { w.prepare task with line := w.line.eraseIdx k, busy := true }
  | .done true => { w.prepare task with line := w.line.eraseIdx k, busy := true, running := false, finished := true }
  | .failed _ => { w.prepare task with line := w.line.eraseIdx k, busy := true, running := false, errored := true }

def step (w : UnzipWrapper) : Ev → Option UnzipWrapper
  | .push chunk initOk => push w chunk initOk
  | .tick k outcome =>
    if w.busy then none
    else (w.line[k]?).map fun task =>
      -- after the end a task fails before `Prepare`
      if w.ended then { w with line := w.line.eraseIdx k, busy := true } else tick w k task outcome
  | .doneReturned =>
    if w.busy then
      match w.taskQueue with
      | input :: taskQueue => some { w with busy := false, taskQueue, line := w.line ++ [{ input }] }
      | [] => some { w with busy := false, running := false }
    else none

def start (windowBits : Int) : UnzipWrapper := { type := .unzip, windowBits }

def stream : List Ev → Bytes
  | [] => []
  | .push chunk _ :: es => chunk ++ stream es
  | _ :: es => stream es

theorem stream_append (es fs : List Ev) : stream (es ++ fs) = stream es ++ stream fs := by
  induction es with
  | nil => rfl
  | cons e es ih =>
    cases e with
    | push chunk initOk => simp only [cons_append, stream, ih, append_assoc]
    | tick k outcome => exact ih
    | doneReturned => exact ih

/-! ## The type -/

def isGzip (s : Bytes) : Bool := [gzipHeaderId1, gzipHeaderId2].isPrefixOf s

def typeOf (s : Bytes) : UnzipType := if isGzip s then .gunzip else .inflate

def bitsOf (windowBits : Int) (s : Bytes) : Int := if isGzip s then windowBits + 16 else windowBits

theorem typeOf_ne (s : Bytes) : typeOf s ≠ .unzip := by
  unfold typeOf
  split <;> exact nofun

theorem isGzip_append {s : Bytes} (hs : s ≠ []) (hs' : s ≠ [gzipHeaderId1]) (t : Bytes) : isGzip (s ++ t) = isGzip s := by
  match s with
  | [] => exact absurd rfl hs
  | [a] =>
    have ha : a ≠ gzipHeaderId1 := fun he => hs' (by rw [he])
    simp [isGzip, List.isPrefixOf, ha.symm]
  | a :: b :: s => simp [isGzip, List.isPrefixOf]

theorem secondType_eq (b : UInt8) (s : Bytes) : secondType (some b) = typeOf (gzipHeaderId1 :: b :: s) := by
  by_cases hb : b = gzipHeaderId2
  · simp [secondType, typeOf, isGzip, hb]
  · simp [secondType, typeOf, isGzip, hb, Ne.symm hb]

/-- What is known of the type after the octets `s`. -/
inductive Known (windowBits : Int) (w : UnzipWrapper) (s : Bytes) : Prop
  | nothing (hs : s = []) (htype : w.type = .unzip) (hparsed : w.parsed = .nonParsed) (hinit : w.inited = false) (hinits : w.inits = [])
    (hhead : w.headTask = none)
  | first (hs : s = [gzipHeaderId1]) (htype : w.type = .unzip) (hparsed : w.parsed = .firstParsed) (hinit : w.inited = false)
    (hinits : w.inits = []) (hhead : w.headTask = some [gzipHeaderId1])
  | decided (hs : s ≠ []) (hs' : s ≠ [gzipHeaderId1]) (htype : w.type = typeOf s) (hinit : w.inited = true)
    (hinits : w.inits = [bitsOf windowBits s])

structure TypeOk (windowBits : Int) (w : UnzipWrapper) (s : Bytes) : Prop where
  bits : w.windowBits = windowBits
  known : Known windowBits w s

variable {windowBits : Int} {w w' : UnzipWrapper} {s chunk : Bytes}

theorem enqueue_fields (w : UnzipWrapper) (chunk : Bytes) : (w.enqueue chunk).type = w.type ∧ (w.enqueue chunk).windowBits = w.windowBits ∧
    (w.enqueue chunk).inited = w.inited ∧ (w.enqueue chunk).inits = w.inits ∧ (w.enqueue chunk).headTask = none := by
  unfold UnzipWrapper.enqueue
  simp only
  split <;> exact ⟨rfl, rfl, rfl, rfl, rfl⟩

theorem TypeOk.enqueue (h : TypeOk windowBits w s) (hinit : w.inited = true) (chunk : Bytes) : TypeOk windowBits (w.enqueue chunk) s := by
  obtain ⟨htype, hbits, hinited, hinits, -⟩ := enqueue_fields w chunk
  refine ⟨hbits.trans h.bits, ?_⟩
  cases h.known with
  | nothing _ _ _ hno => rw [hno] at hinit; cases hinit
  | first _ _ _ hno => rw [hno] at hinit; cases hinit
  | decided hs hs' ht hi his => exact .decided hs hs' (htype.trans ht) (hinited.trans hi) (hinits.trans his)

theorem init_ok (hbits : w.windowBits = windowBits) (hinits : w.inits = []) (htype : w.type = typeOf s) (hs : s ≠ [])
    (hs' : s ≠ [gzipHeaderId1]) : TypeOk windowBits w.init s := by
  refine ⟨hbits, .decided hs hs' htype rfl ?_⟩
  simp only [UnzipWrapper.init, hinits, nil_append, htype, hbits, bitsOf, typeOf]
  by_cases hg : isGzip s = true <;> simp [hg]

/-- What the `switch` decides, and that it is not decided twice. -/
inductive Decides (windowBits : Int) (w : UnzipWrapper) (s chunk : Bytes) : UnzipWrapper → Bool → Prop
  | parks (w' : UnzipWrapper) (h : TypeOk windowBits w' (s ++ chunk)) (hhead : w.headTask = none) (hinit : w'.inited = false)
    (hw : w' = { w with parsed := .firstParsed, headTask := some chunk }) : Decides windowBits w s chunk w' true
  | decides (parsed : ParsedStatus) (type : UnzipType) (hinit : w.inited = false) (hinits : w.inits = []) (htype : type = typeOf (s ++ chunk))
    (hs : s ++ chunk ≠ []) (hs' : s ++ chunk ≠ [gzipHeaderId1]) : Decides windowBits w s chunk { w with parsed, type } false
  | knows (hinit : w.inited = true) (h : TypeOk windowBits w (s ++ chunk)) : Decides windowBits w s chunk w false

theorem detect_decides (h : TypeOk windowBits w s) (hc : chunk ≠ []) {parked : Bool} (hd : detect w chunk = some (w', parked)) :
    Decides windowBits w s chunk w' parked := by
  obtain ⟨b, rest, rfl⟩ := exists_cons_of_ne_nil hc
  unfold detect at hd
  cases h.known with
  | nothing hs htype hparsed hinit hinits hhead =>
    subst hs
    rw [if_pos htype] at hd
    split at hd
    case h_2 hp => rw [hparsed] at hp; cases hp
    case h_3 hp => rw [hparsed] at hp; cases hp
    simp only [head?_cons, Option.some.injEq] at hd
    split at hd
    · next hb =>
      subst hb
      split at hd
      · next hlen =>
        obtain rfl : rest = [] := by simpa using hlen
        cases hd
        exact .parks _ ⟨h.bits, .first rfl htype rfl hinit hinits rfl⟩ hhead hinit rfl
      · next hlen =>
        obtain ⟨c, rest, rfl⟩ := exists_cons_of_ne_nil (fun he => hlen (by simp [he]) : rest ≠ [])
        cases hd
        exact .decides _ _ hinit hinits (secondType_eq c rest) (by simp) (by simp)
    · next hb =>
      cases hd
      have htypeOf : typeOf ([] ++ b :: rest) = .inflate := by simp [typeOf, isGzip, Ne.symm hb]
      exact .decides w.parsed .inflate hinit hinits htypeOf.symm (by simp) (by simp [hb])
  | first hs htype hparsed hinit hinits hhead =>
    subst hs
    rw [if_pos htype] at hd
    split at hd
    case h_1 hp => rw [hparsed] at hp; cases hp
    case h_3 hp => rw [hparsed] at hp; cases hp
    cases hd
    exact .decides _ _ hinit hinits (secondType_eq b rest) (by simp) (by simp)
  | decided hs hs' htype hinit hinits =>
    rw [if_neg (htype ▸ typeOf_ne s)] at hd
    cases hd
    have hgzip := isGzip_append hs hs' (b :: rest)
    refine .knows hinit ⟨h.bits, .decided (by simp) (fun he => ?_) ?_ hinit ?_⟩
    · exact hs (append_eq_singleton_iff.mp he |>.elim (·.1) fun h => absurd h.2 (by simp))
    · rw [htype, typeOf, typeOf, hgzip]
    · rw [hinits, bitsOf, bitsOf, hgzip]

theorem push_type (h : TypeOk windowBits w s) {initOk : Bool} (hp : push w chunk initOk = some w') : TypeOk windowBits w' (s ++ chunk) := by
  unfold push at hp
  split at hp
  · next hc =>
    cases hp
    rw [hc, append_nil]
    exact h
  next hc =>
  split at hp
  · cases hp
  · next w1 hd =>
    cases hp
    cases detect_decides h hc hd with
    | parks _ h1 => exact h1
  · next w1 hd =>
    cases detect_decides h hc hd with
    | decides parsed type hinit hinits htype hs hs' =>
      have hok : TypeOk windowBits ({ w with parsed, type } : UnzipWrapper).init (s ++ chunk) := init_ok h.bits hinits htype hs hs'
      simp only [hinit, Bool.false_eq_true, if_false] at hp
      split at hp
      · cases hp
        exact hok.enqueue rfl chunk
      · cases hp
        exact hok
    | knows hinit h1 =>
      rw [if_pos hinit] at hp
      cases hp
      exact h1.enqueue hinit chunk

theorem TypeOk.same (h : TypeOk windowBits w s) (hbits : w'.windowBits = w.windowBits) (htype : w'.type = w.type) (hparsed : w'.parsed = w.parsed)
    (hinit : w'.inited = w.inited) (hinits : w'.inits = w.inits) (hhead : w'.headTask = w.headTask) : TypeOk windowBits w' s := by
  refine ⟨hbits.trans h.bits, ?_⟩
  cases h.known with
  | nothing hs h1 h2 h3 h4 h5 => exact .nothing hs (htype.trans h1) (hparsed.trans h2) (hinit.trans h3) (hinits.trans h4) (hhead.trans h5)
  | first hs h1 h2 h3 h4 h5 => exact .first hs (htype.trans h1) (hparsed.trans h2) (hinit.trans h3) (hinits.trans h4) (hhead.trans h5)
  | decided hs hs' h1 h2 h3 => exact .decided hs hs' (htype.trans h1) (hinit.trans h2) (hinits.trans h3)

/-! ## The octets -/

/-- The octets of tasks for which `Prepare` has not been called. -/
def waiting (w : UnzipWrapper) : Bytes :=
  ((w.line.filter (!·.prepared)).map Task.input).flatten ++ w.taskQueue.flatten ++ w.headTask.getD []

/-- As long as the stream is open a task runs alone. -/
structure LineOk (w : UnzipWrapper) : Prop where
  handed : w.running = true → w.line ≠ [] ∨ w.busy = true
  going : w.taskQueue ≠ [] → w.line ≠ [] ∨ w.busy = true
  single : w.ended = false → w.line.length + w.busy.toNat ≤ 1
  running : w.ended = false → w.line ≠ [] ∨ w.busy = true → w.running = true

structure Presents (w : UnzipWrapper) (s : Bytes) : Prop where
  line : LineOk w
  head : w.inited = true → w.headTask = none
  rest : w.ended = false → w.presented.flatten ++ waiting w = s
  upTo : w.presented.flatten <+: s

theorem start_presents (windowBits : Int) : Presents (start windowBits) [] where
  line := ⟨nofun, fun h => absurd rfl h, fun _ => Nat.zero_le _, fun _ h => by simp [start] at h⟩
  head := nofun
  rest _ := rfl
  upTo := nil_prefix

theorem LineOk.idle (h : LineOk w) (hl : w.line = []) (hb : w.busy = false) : w.taskQueue = [] := by
  by_contra hq
  rcases h.going hq with hne | hbusy
  · exact hne hl
  · rw [hb] at hbusy
    cases hbusy

theorem enqueue_line (h : LineOk w) (chunk : Bytes) : LineOk (w.enqueue chunk) := by
  unfold UnzipWrapper.enqueue
  simp only
  split
  · next hrun => exact ⟨h.handed, fun _ => h.handed hrun, h.single, h.running⟩
  · next hrun =>
    obtain ⟨x, queue, hq⟩ := exists_cons_of_ne_nil (by simp : w.taskQueue ++ w.headTask.toList ++ [chunk] ≠ [])
    have hne : w.line ++ ((w.taskQueue ++ w.headTask.toList ++ [chunk]).take 1).map (fun input => ({ input } : Task)) ≠ [] := by
      rw [hq]
      simp
    refine ⟨fun _ => Or.inl hne, fun _ => Or.inl hne, fun ho => ?_, fun _ _ => rfl⟩
    -- before the end `_running` is set as long as a task is at work
    have hidle : ¬(w.line ≠ [] ∨ w.busy = true) := fun hb => hrun (h.running ho hb)
    push Not at hidle
    simp [hq, hidle.1, Bool.eq_false_of_not_eq_true hidle.2]

theorem enqueue_waiting (h : LineOk w) (ho : w.ended = false) (chunk : Bytes) : waiting (w.enqueue chunk) = waiting w ++ chunk := by
  have hhead : w.headTask.toList.flatten = w.headTask.getD [] := by
    cases w.headTask <;> simp
  unfold UnzipWrapper.enqueue waiting
  simp only
  split
  · simp [hhead]
  · next hrun =>
    have hidle : ¬(w.line ≠ [] ∨ w.busy = true) := fun hb => hrun (h.running ho hb)
    push Not at hidle
    have hq := h.idle hidle.1 (Bool.eq_false_of_not_eq_true hidle.2)
    rw [hidle.1, hq]
    cases hh : w.headTask with
    | none => simp
    | some head => simp

theorem enqueue_presented (w : UnzipWrapper) (chunk : Bytes) :
    (w.enqueue chunk).presented = w.presented ∧ (w.enqueue chunk).ended = w.ended := by
  unfold UnzipWrapper.enqueue
  simp only
  split <;> exact ⟨rfl, rfl⟩

theorem Presents.enqueue (h : Presents w s) (chunk : Bytes) : Presents (w.enqueue chunk) (s ++ chunk) := by
  obtain ⟨hpres, hended⟩ := enqueue_presented w chunk
  refine ⟨enqueue_line h.line chunk, fun _ => (enqueue_fields w chunk).2.2.2.2, fun ho => ?_, ?_⟩
  · rw [hended] at ho
    rw [hpres, enqueue_waiting h.line ho, ← append_assoc, h.rest ho]
  · rw [hpres]
    exact h.upTo.trans (prefix_append _ _)

theorem push_presents (ht : TypeOk windowBits w s) (h : Presents w s) (hp : push w chunk true = some w') : Presents w' (s ++ chunk) := by
  unfold push at hp
  split at hp
  · next hc =>
    cases hp
    rw [hc, append_nil]
    exact h
  next hc =>
  split at hp
  · cases hp
  · next w1 hd =>
    cases hp
    cases detect_decides ht hc hd with
    | parks _ h1 hhead hinit hw =>
      subst hw
      refine ⟨⟨h.line.handed, h.line.going, h.line.single, h.line.running⟩, fun hi => absurd (hi.symm.trans hinit) nofun, fun ho => ?_, ?_⟩
      · have hrest := h.rest ho
        simp only [waiting, hhead, getD_none, append_nil] at hrest
        simp only [waiting, getD_some, ← append_assoc] at hrest ⊢
        rw [hrest]
      · exact h.upTo.trans (prefix_append _ _)
  · next w1 hd =>
    cases detect_decides ht hc hd with
    | decides parsed type hinit =>
      rw [if_neg (by simp [hinit]), if_pos rfl] at hp
      cases hp
      -- the head task goes into the queue in front of the new one
      obtain ⟨hpres, hended⟩ := enqueue_presented ({ w with parsed, type } : UnzipWrapper).init chunk
      have hline : LineOk ({ w with parsed, type } : UnzipWrapper).init :=
        ⟨h.line.handed, h.line.going, h.line.single, h.line.running⟩
      refine ⟨enqueue_line hline chunk, fun _ => (enqueue_fields _ chunk).2.2.2.2, fun ho => ?_, ?_⟩
      · rw [hended] at ho
        rw [hpres, enqueue_waiting hline ho, ← append_assoc]
        exact congrArg (· ++ chunk) (h.rest ho)
      · rw [hpres]
        exact h.upTo.trans (prefix_append _ _)
    | knows hinit h1 =>
      rw [if_pos hinit] at hp
      cases hp
      exact h.enqueue chunk

variable {k : Nat} {task : Task}

theorem LineOk.only (h : LineOk w) (ho : w.ended = false) (hb : w.busy = false) (hk : w.line[k]? = some task) :
    w.line = [task] ∧ k = 0 := by
  have hlt := (List.getElem?_eq_some_iff.mp hk).1
  have hsingle := h.single ho
  rw [hb, Bool.toNat_false] at hsingle
  obtain rfl : k = 0 := by omega
  obtain ⟨x, hx⟩ := length_eq_one_iff.mp (by omega : w.line.length = 1)
  rw [hx] at hk ⊢
  cases hk
  exact ⟨rfl, rfl⟩

theorem prepare_rest (h : Presents w s) (ho : w.ended = false) (hl : w.line = [task]) :
    (w.prepare task).presented.flatten ++ (w.taskQueue.flatten ++ w.headTask.getD []) = s := by
  have hrest := h.rest ho
  rw [waiting, hl] at hrest
  unfold UnzipWrapper.prepare
  cases hp : task.prepared with
  | true => simpa [hp] using hrest
  | false => simpa [hp] using hrest

/-- `Prepare` only hands the task's octets over. -/
theorem prepare_fields (w : UnzipWrapper) (task : Task) : (w.prepare task).taskQueue = w.taskQueue ∧ (w.prepare task).headTask = w.headTask ∧
    (w.prepare task).inited = w.inited ∧ (w.prepare task).running = w.running ∧ (w.prepare task).busy = w.busy := by
  unfold UnzipWrapper.prepare
  split <;> exact ⟨rfl, rfl, rfl, rfl, rfl⟩

theorem tick_presents (h : Presents w s) (ho : w.ended = false) (hb : w.busy = false) (hk : w.line[k]? = some task)
    (outcome : Outcome) : Presents (tick w k task outcome) s := by
  obtain ⟨hl, rfl⟩ := h.line.only ho hb hk
  have hrest := prepare_rest h ho hl
  have hupTo : (w.prepare task).presented.flatten <+: s := ⟨_, hrest⟩
  obtain ⟨hq, hh, hi, hr, hbusy⟩ := prepare_fields w task
  have hrun : w.running = true := h.line.running ho (Or.inl (by simp [hl]))
  have hhead : (w.prepare task).inited = true → (w.prepare task).headTask = none := by
    rw [hi, hh]
    exact h.head
  cases outcome with
  | wait =>
    have hline : w.line.set 0 { task with prepared := true } = [{ task with prepared := true }] := by rw [hl, set_cons_zero]
    refine ⟨⟨fun _ => Or.inl ?_, fun _ => Or.inl ?_, fun _ => ?_, fun _ _ => ?_⟩, hhead, fun _ => ?_, hupTo⟩
    · simp [tick, hline]
    · simp [tick, hline]
    · simp [tick, hline, hbusy, hb]
    · exact hr.trans hrun
    · simpa [tick, waiting, hline, hq, hh] using hrest
  | done all =>
    cases all with
    | false =>
      refine ⟨⟨fun _ => Or.inr rfl, fun _ => Or.inr rfl, fun _ => ?_, fun _ _ => hr.trans hrun⟩, hhead, fun _ => ?_, hupTo⟩
      · simp [tick, hl]
      · simpa [tick, waiting, hl, hq, hh] using hrest
    | true => exact ⟨⟨fun _ => Or.inr rfl, fun _ => Or.inr rfl, nofun, nofun⟩, hhead, nofun, hupTo⟩
  | failed message =>
    have hended : (tick w 0 task (.failed message)).ended = true := by simp [tick, UnzipWrapper.ended]
    refine ⟨⟨fun _ => Or.inr rfl, fun _ => Or.inr rfl, fun he => ?_, fun he => ?_⟩, hhead, fun he => ?_, hupTo⟩
    · rw [hended] at he
      cases he
    · rw [hended] at he
      cases he
    · rw [hended] at he
      cases he

theorem refuse_presents (h : Presents w s) (he : w.ended = true) (k : Nat) : Presents { w with line := w.line.eraseIdx k, busy := true } s := by
  have hno : ∀ {p : Prop}, ({ w with line := w.line.eraseIdx k, busy := true } : UnzipWrapper).ended = false → p := by
    intro p ho
    have hopen : w.ended = false := ho
    rw [he] at hopen
    cases hopen
  exact ⟨⟨fun _ => Or.inr rfl, fun _ => Or.inr rfl, hno, hno⟩, h.head, hno, h.upTo⟩

theorem returned_presents (h : Presents w s) (hb : w.busy = true) (hs : step w .doneReturned = some w') : Presents w' s := by
  have hline : w.ended = false → w.line = [] := by
    intro ho
    have := h.line.single ho
    simpa [hb] using this
  simp only [step, if_pos hb] at hs
  split at hs
  · next input queue hq =>
    cases hs
    have hne : w.line ++ [({ input } : Task)] ≠ [] := by simp
    refine ⟨⟨fun _ => Or.inl hne, fun _ => Or.inl hne, fun ho => ?_, fun ho _ => h.line.running ho (Or.inr hb)⟩, h.head, fun ho => ?_, h.upTo⟩
    · simp [hline ho]
    · have hrest := h.rest ho
      simp only [waiting, hline ho, hq] at hrest ⊢
      simpa using hrest
  · next hq =>
    cases hs
    refine ⟨⟨nofun, fun hne => absurd hq hne, fun ho => ?_, fun ho hwork => ?_⟩, h.head, h.rest, h.upTo⟩
    · simp [hline ho]
    · simp [hline ho] at hwork

/-! ## Whole runs -/

structure DetectOk (windowBits : Int) (w : UnzipWrapper) (s : Bytes) : Prop where
  type : TypeOk windowBits w s
  presents : Presents w s

/-- `inflateInit2` succeeds if this event calls it. -/
def InitOk (_ : UnzipWrapper) : Ev → Prop
  | .push _ initOk => initOk = true
  | _ => True

theorem step_ok (h : DetectOk windowBits w s) {e : Ev} (hinit : InitOk w e) (hs : step w e = some w') :
    DetectOk windowBits w' (s ++ stream [e]) := by
  cases e with
  | push chunk initOk =>
    obtain rfl : initOk = true := hinit
    rw [show stream [.push chunk true] = chunk from append_nil chunk]
    exact ⟨push_type h.type hs, push_presents h.type h.presents hs⟩
  | tick k outcome =>
    rw [show stream [.tick k outcome] = [] from rfl, append_nil]
    simp only [step] at hs
    split at hs
    · cases hs
    next hb =>
    obtain ⟨task, hk, rfl⟩ := map_eq_some_iff.mp hs
    split
    · next he => exact ⟨h.type.same rfl rfl rfl rfl rfl rfl, refuse_presents h.presents he k⟩
    · next ho =>
      refine ⟨?_, tick_presents h.presents (Bool.eq_false_of_not_eq_true ho) (Bool.eq_false_of_not_eq_true hb) hk outcome⟩
      have hprep : TypeOk windowBits (w.prepare task) s := by
        unfold UnzipWrapper.prepare
        split
        · exact h.type
        · exact h.type.same rfl rfl rfl rfl rfl rfl
      cases outcome with
      | wait | failed _ => exact hprep.same rfl rfl rfl rfl rfl rfl
      | done all => cases all <;> exact hprep.same rfl rfl rfl rfl rfl rfl
  | doneReturned =>
    rw [show stream [.doneReturned] = [] from rfl, append_nil]
    have hb : w.busy = true := by
      by_contra hb
      simp [step, hb] at hs
    refine ⟨?_, returned_presents h.presents hb hs⟩
    simp only [step, if_pos hb] at hs
    split at hs <;> cases hs <;> exact h.type.same rfl rfl rfl rfl rfl rfl

/-- What the wrapper has made of the octets `s`, two or more. -/
structure Detected (windowBits : Int) (s : Bytes) (w : UnzipWrapper) : Prop where
  type : w.type = if [0x1f, 0x8b] <+: s then .gunzip else .inflate
  /-- one call, with the window bits of the type that was decided -/
  init : w.inits = [if w.type = .gunzip then windowBits + 16 else windowBits]
  presented : w.presented.flatten <+: s
  /-- no task is at work, and `inflate` has not ended or failed -/
  all : w.line = [] → w.busy = false → w.ended = false → w.presented.flatten = s

theorem isGzip_iff (s : Bytes) : isGzip s = true ↔ [0x1f, 0x8b] <+: s := isPrefixOf_iff_prefix

/-- Any cut of any stream into pushes, with ticks and callbacks between them. -/
theorem detected {es : List Ev} (hr : run step (start windowBits) es = some w) (hinit : ∀ chunk, Ev.push chunk false ∉ es)
    (hlen : 2 ≤ (stream es).length) : Detected windowBits (stream es) w := by
  have ha : Along step InitOk (start windowBits) es := by
    refine (along_iff_forall (p := InitOk (start windowBits)) hr).mpr fun e he => ?_
    cases e with
    | push chunk initOk =>
      cases initOk with
      | true => rfl
      | false => exact absurd he (hinit chunk)
    | tick k outcome => trivial
    | doneReturned => trivial
  have hstart : DetectOk windowBits (start windowBits) (stream []) := ⟨⟨rfl, .nothing rfl rfl rfl rfl rfl rfl⟩, start_presents windowBits⟩
  have h : DetectOk windowBits w (stream es) := nil_append es ▸
    run_history_along (J := fun w es => DetectOk windowBits w (stream es))
      (fun w es e w' h hq hs => by rw [stream_append]; exact step_ok h hq hs) hstart ha hr
  cases h.type.known with
  | nothing hs =>
    rw [hs] at hlen
    exact absurd hlen (by decide)
  | first hs =>
    rw [hs] at hlen
    exact absurd hlen (by decide)
  | decided hs hs' htype hinited hinits =>
    have htypeIff : w.type = .gunzip ↔ isGzip (stream es) = true := by
      rw [htype, typeOf]
      split
      · next hg => simp [hg]
      · next hg => simp [hg]
    refine ⟨?_, ?_, h.presents.upTo, fun hl hb ho => ?_⟩
    · rw [htype, typeOf]
      simp only [isGzip_iff]
    · rw [hinits, bitsOf]
      simp only [htypeIff]
    · have hrest := h.presents.rest ho
      rw [waiting, hl, h.presents.line.idle hl hb, h.presents.head hinited] at hrest
      simpa using hrest

/-- The header in two pushes with an empty one between them, and one more while the first task is at work. -/
def cutRun : List Ev :=
  [.push [0x1f] true, .push [] true, .push [0x8b, 0x08] true, .tick 0 (.done false), .push [0x00] true, .doneReturned, .tick 0 .wait,
    .tick 0 (.done false), .doneReturned, .tick 0 (.done false), .doneReturned]

theorem detected_cut : ∃ w, run step (start 15) cutRun = some w ∧ w.presented = [[0x1f], [0x8b, 0x08], [0x00]] ∧ Detected 15 (stream cutRun) w := by
  obtain ⟨w, hr, hpres⟩ : ∃ w, run step (start 15) cutRun = some w ∧ w.presented = [[0x1f], [0x8b, 0x08], [0x00]] := ⟨_, rfl, rfl⟩
  refine ⟨w, hr, hpres, detected hr (fun chunk hm => ?_) (by decide)⟩
  simp [cutRun] at hm

/-- The stream goes on after its end; and `inflateInit2` fails. -/
theorem end_drops :
    (∃ w, run step (start 15) [.push [0x1f, 0x8b] true, .tick 0 (.done true), .doneReturned, .push [0x00] true, .tick 0 .wait, .doneReturned] = some w ∧
      w.line = [] ∧ w.busy = false ∧ w.presented.flatten = [0x1f, 0x8b]) ∧
    ∃ w, run step (start 15) [.push [0x78, 0x9c] false] = some w ∧ w.line = [] ∧ w.busy = false ∧ w.presented.flatten = [] :=
  ⟨⟨_, rfl, rfl, rfl, rfl⟩, _, rfl, rfl, rfl, rfl⟩

end Aworker.Zlib.Detect
