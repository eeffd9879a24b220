/-
  Aworker.AgentChannel.Resources — locks taken through the agent (lib/agent_channel.js:
  `call`, `agentCallback`, `acquireResource` and the `resourceNotification` handler) over
  the data channel.

  `acquireResource` awaits the response of its `resourcePut`. If the agent grants the lock
  there, it returns; otherwise it enters a deferred into `resourceWaitList` under the
  response's token and awaits that. All of this happens in microtasks, some turns after
  the response was handed over (`traceAsync` puts a `finally` in between, `hops` jobs).
  `TickTaskQueue` drains them before the next message is dispatched, so the entry is there
  when the token's notification comes.

  The agent's side is kept beside the code's: which acquisitions it was asked for and has
  not answered (`asked`, by request id), and what it said (`arrivals`).

  An acquisition is in one place at a time (`Stage`), the one the arrivals call for. Each
  thing that can happen moves at most one acquisition (`Advances`): `ask_advances`,
  `answer_advances`, `notify_advances`, `job_advances`.
-/

import Aworker.AgentChannel.ChannelRefs

namespace Aworker.AgentChannel

open List Option

open Std (TreeMap)
open Aworker.Lib (insert_get erase_get insert_some_iff erase_some_iff)
open Aworker.Ipc (Protobuf RequestId RequestKind CanonicalCode)

variable (P : Protobuf)

/-! ## JavaScript's side -/

/-- An entry of `events`: the `n`th acquisition's `resourcePut`, or another call. -/
inductive Call where
  | acquire (a : Nat)
  | other

/-- A microtask of acquisition `a`: its `resourcePut` promise is settled (with an error,
    or `success_or_acquired` and the token) and `hops` jobs away from the code after the
    `await`, or its deferred is resolved. -/
inductive Job where
  | put (hops : Nat) (a : Nat) (answer : Option (Bool × String))
  | wake (a : Nat)

def Job.acquirer : Job → Nat
  | .put _ a _ => a
  | .wake a => a

structure Js where
  events : TreeMap RequestId Call := ∅
  resourceWaitList : TreeMap String Nat := ∅
  queue : List Job := []
  /-- acquisitions whose promise was resolved and rejected -/
  resolved : List Nat := []
  rejected : List Nat := []

/-- `agentCallback`; `none` is an error. -/
def agentCallback (hops : Nat) (js : Js) (id : RequestId) (answer : Option (Bool × String)) : Js :=
  match js.events[id]? with
  | none => js
  | some .other => { js with events := js.events.erase id }
  | some (.acquire a) => { js with events := js.events.erase id, queue := js.queue ++ [.put hops a answer] }

/-- The `resourceNotification` handler after its feedback. -/
def resourceNotification (js : Js) (token : String) : Js :=
  match js.resourceWaitList[token]? with
  | none => js
  | some a => { js with resourceWaitList := js.resourceWaitList.erase token, queue := js.queue ++ [.wake a] }

/-- One microtask: a step of the promise chain, or `acquireResource` from its `await` on. -/
def runJob (js : Js) : Job → Js
  | .put (h + 1) a answer => { js with queue := js.queue ++ [.put h a answer] }
  | .put 0 a none => { js with rejected := js.rejected ++ [a] }
  | .put 0 a (some (true, _)) => { js with resolved := js.resolved ++ [a] }
  | .put 0 a (some (false, token)) => { js with resourceWaitList := js.resourceWaitList.insert token a }
  | .wake a => { js with resolved := js.resolved ++ [a] }

def microtask (js : Js) : Option Js :=
  match js.queue with
  | [] => none
  | j :: q => some (runJob { js with queue := q } j)

/-! ## The worker and the agent -/

/-- What reached the worker: the agent answered acquisition `a`, or notified a token. -/
inductive Arrival where
  | answered (a : Nat) (success : Bool) (token : String)
  | notified (token : String)

structure Worker where
  channel : Channel P
  js : Js := {}
  acquirers : Nat := 0
  asked : TreeMap RequestId Nat := ∅
  arrivals : List Arrival := []

/-- `success_or_acquired()` and `token()` of a `ResourcePutResponseMessage`, as JavaScript
    gets them. -/
structure ResourceFields where
  successOrAcquired : P.Msg → Bool
  token : P.Msg → String

inductive WorkerEv where
  /-- `acquireResource`, up to its first `await` -/
  | acquire (body : P.Msg)
  /-- any other `call`, a lock's `release` included -/
  | call (kind : RequestKind) (body : P.Msg)
  | response (id : RequestId) (code : CanonicalCode) (body : Option P.Msg)
  | expire (t : Nat)
  | returned
  | notification (id : RequestId) (token : String)
  /-- the agent's other requests, feedbacks, `Ref` and `Unref` -/
  | other (e : ChannelEv P)
  | microtask

def ChannelEv.isOther : ChannelEv P → Bool
  | .incoming _ .trigger | .incoming _ .streamPush | .feedback _ _ | .ref | .unref => true
  | _ => false

variable (R : ResourceFields P) (hops : Nat)

/-- What a response hands to JavaScript. An OK response has a body. -/
def answerOf (code : CanonicalCode) (body : Option P.Msg) : Option (Option (Bool × String)) :=
  if code = .ok then body.map fun m => some (R.successOrAcquired m, R.token m) else some none

def answered (s : Worker P) (id : RequestId) (answer : Option (Bool × String)) : List Arrival :=
  match s.asked[id]?, answer with
  | some a, some (success, token) => [.answered a success token]
  | _, _ => []

/-- A message, a timer or the return from a callback comes when the microtasks of the last
    one are drained. -/
def workerStep (s : Worker P) : WorkerEv P → Option (Worker P)
  | .acquire body => (channelStep P s.channel (.jsCall .resourcePut body)).map fun c => { s with
      channel := c
      js := { s.js with events := s.js.events.insert s.channel.seq (.acquire s.acquirers) }
      acquirers := s.acquirers + 1
      asked := s.asked.insert s.channel.seq s.acquirers }
  | .call kind body => (channelStep P s.channel (.jsCall kind body)).map fun c => { s with
      channel := c, js := { s.js with events := s.js.events.insert s.channel.seq .other } }
  | .response id code body =>
    if s.js.queue = [] then
      (channelStep P s.channel (.response id code body)).bind fun c => (answerOf P R code body).map fun answer => { s with
        channel := c
        js := if id ∈ s.channel.delegate.callbacks then agentCallback hops s.js id answer else s.js
        asked := s.asked.erase id
        arrivals := s.arrivals ++ answered P s id answer }
    else none
  | .expire t =>
    if s.js.queue = [] then
      (s.channel.delegate.armed[t]?).bind fun id => (channelStep P s.channel (.expire t)).map fun c =>
        { s with channel := c, js := agentCallback hops s.js id none }
    else none
  | .returned =>
    if s.js.queue = [] then (channelStep P s.channel .returned).map fun c => { s with channel := c } else none
  | .notification id token =>
    if s.js.queue = [] then
      (channelStep P s.channel (.incoming id .resourceNotification)).bind fun c =>
        (channelStep P c (.feedback id ⟨.ok, none, none⟩)).map fun c =>
          { s with channel := c, js := resourceNotification s.js token, arrivals := s.arrivals ++ [.notified token] }
    else none
  | .other e =>
    if e.isOther = true ∧ (e.fromLoop = true → s.js.queue = []) then
      (channelStep P s.channel e).map fun c => { s with channel := c }
    else none
  | .microtask => (Aworker.AgentChannel.microtask s.js).map fun js => { s with js := js }

/-- The agent granted the lock: with its answer, or later with a notification of the
    answer's token. -/
def Granted (arrivals : List Arrival) (a : Nat) : Prop :=
  ∃ token, .answered a true token ∈ arrivals ∨ [.answered a false token, .notified token].Sublist arrivals

def Arrival.answerToken : Arrival → Option String
  | .answered _ _ token => some token
  | .notified _ => none

/-- No acquisition times out, and no two answers to acquisitions have one token. -/
def Assumed (s : Worker P) : WorkerEv P → Prop
  | .response id .ok (some m) => id ∈ s.asked → R.token m ∉ s.arrivals.filterMap Arrival.answerToken
  | .expire t => ∀ id ∈ s.channel.delegate.armed[t]?, id ∉ s.asked
  | _ => True

/-! ## Grants -/

theorem pair_sublist_concat {α : Type} {x y z : α} {l : List α} :
    [x, y].Sublist (l ++ [z]) ↔ [x, y].Sublist l ∨ y = z ∧ x ∈ l := by
  rw [← reverse_sublist, ← @reverse_sublist _ [x, y] l]
  simp only [reverse_append, reverse_cons, reverse_nil, nil_append, cons_append]
  constructor
  · intro h
    cases h with
    | cons _ h => exact Or.inl h
    | cons_cons _ h => exact Or.inr ⟨rfl, mem_reverse.mp (singleton_sublist.mp h)⟩
  · intro h
    rcases h with h | ⟨rfl, h⟩
    · exact h.cons z
    · exact (singleton_sublist.mpr (mem_reverse.mpr h)).cons_cons y

variable {arr : List Arrival} {a : Nat} {success : Bool} {token : String}

/-- What the last arrival adds: an answer that grants, or the notification of one that does not. -/
theorem granted_concat {x : Arrival} : Granted (arr ++ [x]) a ↔ Granted arr a ∨
    ∃ t, .answered a true t = x ∨ .notified t = x ∧ .answered a false t ∈ arr := by
  unfold Granted
  rw [← exists_or]
  refine exists_congr fun t => ?_
  rw [mem_append, mem_singleton, pair_sublist_concat]
  exact or_or_or_comm

theorem granted_answered {x : Nat} :
    Granted (arr ++ [.answered x success token]) a ↔ Granted arr a ∨ a = x ∧ success = true := by
  rw [granted_concat]
  simp [eq_comm]

theorem granted_notified : Granted (arr ++ [.notified token]) a ↔ Granted arr a ∨ .answered a false token ∈ arr := by
  rw [granted_concat]
  simp

/-! ## Where an acquisition is -/

variable {js js' : Js} {asked asked' : TreeMap RequestId Nat} {arr arr' : List Arrival} {a x : Nat}

/-- Every place that acquisition `a` can be in. -/
structure Located (js : Js) (asked : TreeMap RequestId Nat) (a : Nat) (id : Option RequestId) (jobs : List Job)
    (token : Option String) (count : Nat) : Prop where
  asked : ∀ i : RequestId, asked[i]? = some a ↔ id = some i
  jobs : js.queue.filter (fun j => j.acquirer = a) = jobs
  waits : ∀ t : String, js.resourceWaitList[t]? = some a ↔ token = some t
  resolved : js.resolved.count a = count

def Unanswered (arr : List Arrival) (a : Nat) : Prop := ∀ success token, .answered a success token ∉ arr

/-- The agent answered with this token only, and has not granted the lock. -/
structure Waits (arr : List Arrival) (a : Nat) (token : String) : Prop where
  answer : .answered a false token ∈ arr
  only : ∀ success t, .answered a success t ∈ arr → success = false ∧ t = token
  notGranted : ¬ Granted arr a

/-- The code after the job resolves acquisition `a`. -/
def Due (a : Nat) (j : Job) : Prop := (∃ h token, j = .put h a (some (true, token))) ∨ j = .wake a

inductive Stage (js : Js) (asked : TreeMap RequestId Nat) (arr : List Arrival) (a : Nat) : Prop
  /-- not begun, or refused -/
  | idle (jobs : List Job) : (∀ j ∈ jobs, ∃ h, j = .put h a none) → Located js asked a none jobs none 0 → Unanswered arr a →
      Stage js asked arr a
  | asked (id : RequestId) : Located js asked a (some id) [] none 0 → Unanswered arr a → Stage js asked arr a
  /-- answered with a token, and not in `resourceWaitList` yet -/
  | parked (h : Nat) (token : String) : Located js asked a none [.put h a (some (false, token))] none 0 → Waits arr a token →
      Stage js asked arr a
  | waiting (token : String) : Located js asked a none [] (some token) 0 → Waits arr a token → Stage js asked arr a
  | due (j : Job) : Due a j → Located js asked a none [j] none 0 → Granted arr a → Stage js asked arr a
  | resolved : Located js asked a none [] none 1 → Granted arr a → Stage js asked arr a

/-- Nothing has moved for acquisition `a`. -/
structure Unmoved (js js' : Js) (asked asked' : TreeMap RequestId Nat) (a : Nat) : Prop where
  asked : ∀ i : RequestId, asked'[i]? = some a ↔ asked[i]? = some a
  jobs : js'.queue.filter (fun j => j.acquirer = a) = js.queue.filter (fun j => j.acquirer = a)
  waits : ∀ t : String, js'.resourceWaitList[t]? = some a ↔ js.resourceWaitList[t]? = some a
  resolved : js'.resolved.count a = js.resolved.count a

/-- The agent has said nothing new to acquisition `a`. -/
structure Unheard (arr arr' : List Arrival) (a : Nat) : Prop where
  answers : ∀ success token, .answered a success token ∈ arr' ↔ .answered a success token ∈ arr
  granted : Granted arr' a ↔ Granted arr a

theorem located_unmoved {id : Option RequestId} {jobs : List Job} {token : Option String} {count : Nat}
    (hm : Unmoved js js' asked asked' a) (h : Located js asked a id jobs token count) :
    Located js' asked' a id jobs token count :=
  ⟨fun i => (hm.asked i).trans (h.asked i), hm.jobs.trans h.jobs, fun t => (hm.waits t).trans (h.waits t), hm.resolved.trans h.resolved⟩

theorem unanswered_unheard (hu : Unheard arr arr' a) (h : Unanswered arr a) : Unanswered arr' a :=
  fun success token hm => h success token ((hu.answers success token).mp hm)

theorem waits_unheard (hu : Unheard arr arr' a) (h : Waits arr a token) : Waits arr' a token :=
  ⟨(hu.answers _ _).mpr h.answer, fun success t hm => h.only success t ((hu.answers _ _).mp hm), fun hg => h.notGranted (hu.granted.mp hg)⟩

theorem stage_frame (hm : Unmoved js js' asked asked' a) (hu : Unheard arr arr' a) (h : Stage js asked arr a) :
    Stage js' asked' arr' a := by
  cases h with
  | idle jobs hj hl hn => exact .idle jobs hj (located_unmoved hm hl) (unanswered_unheard hu hn)
  | asked id hl hn => exact .asked id (located_unmoved hm hl) (unanswered_unheard hu hn)
  | parked h token hl hw => exact .parked h token (located_unmoved hm hl) (waits_unheard hu hw)
  | waiting token hl hw => exact .waiting token (located_unmoved hm hl) (waits_unheard hu hw)
  | due j hj hl hg => exact .due j hj (located_unmoved hm hl) (hu.granted.mpr hg)
  | resolved hl hg => exact .resolved (located_unmoved hm hl) (hu.granted.mpr hg)

theorem unmoved_refl (js : Js) (asked : TreeMap RequestId Nat) (a : Nat) : Unmoved js js asked asked a :=
  ⟨fun _ => Iff.rfl, rfl, fun _ => Iff.rfl, rfl⟩

theorem unheard_refl (arr : List Arrival) (a : Nat) : Unheard arr arr a := ⟨fun _ _ => Iff.rfl, Iff.rfl⟩

/-! ## One move at a time -/

variable {id : RequestId}

theorem stage_asked (h : Stage js asked arr a) (hid : asked[id]? = some a) :
    Located js asked a (some id) [] none 0 ∧ Unanswered arr a := by
  cases h with
  | asked id' hl hn =>
    have he : some id' = some id := (hl.asked id).mp hid
    exact ⟨he ▸ hl, hn⟩
  | idle _ _ hl _ | parked _ _ hl _ | waiting _ hl _ | due _ _ hl _ | resolved hl _ => cases (hl.asked id).mp hid

theorem stage_waiting (h : Stage js asked arr a) (ht : js.resourceWaitList[token]? = some a) :
    Located js asked a none [] (some token) 0 ∧ Waits arr a token := by
  cases h with
  | waiting token' hl hw =>
    obtain rfl : token' = token := Option.some.inj ((hl.waits token).mp ht)
    exact ⟨hl, hw⟩
  | idle _ _ hl _ | asked _ hl _ | parked _ _ hl _ | due _ _ hl _ | resolved hl _ => cases (hl.waits token).mp ht

/-- With no microtask left an acquisition that was answered and not granted is in
    `resourceWaitList`. -/
theorem stage_answered (h : Stage js asked arr a) (hq : js.queue = []) (hm : .answered a false token ∈ arr)
    (hg : ¬ Granted arr a) : js.resourceWaitList[token]? = some a := by
  cases h with
  | idle _ _ _ hn => exact absurd hm (hn _ _)
  | asked _ _ hn => exact absurd hm (hn _ _)
  | parked h token' hl _ =>
    have hj := hl.jobs
    rw [hq] at hj
    cases hj
  | waiting token' hl hw => exact (hl.waits token).mpr (congrArg some (hw.only _ _ hm).2.symm)
  | due _ _ _ hg' => exact absurd hg' hg
  | resolved _ hg' => exact absurd hg' hg

/-- A step moves at most one acquisition, `x`. -/
structure Advances (x : Option Nat) (js js' : Js) (asked asked' : TreeMap RequestId Nat) (arr arr' : List Arrival) : Prop where
  moved : ∀ a, x = some a → Stage js' asked' arr' a
  others : ∀ a, x ≠ some a → Unmoved js js' asked asked' a ∧ Unheard arr arr' a

theorem advances_stage {x : Option Nat} (hx : Advances x js js' asked asked' arr arr') (h : ∀ a, Stage js asked arr a) (a : Nat) :
    Stage js' asked' arr' a := by
  by_cases ha : x = some a
  · exact hx.moved a ha
  · obtain ⟨hm, hu⟩ := hx.others a ha
    exact stage_frame hm hu (h a)

theorem events_advances (events : TreeMap RequestId Call) : Advances none js { js with events := events } asked asked arr arr :=
  ⟨nofun, fun a _ => ⟨⟨fun _ => Iff.rfl, rfl, fun _ => Iff.rfl, rfl⟩, unheard_refl arr a⟩⟩

theorem ask_advances (events : TreeMap RequestId Call) (hfree : asked[id]? = none)
    (hl : Located js asked x none [] none 0) (hn : Unanswered arr x) :
    Advances (some x) js { js with events := events } asked (asked.insert id x) arr arr := by
  refine ⟨fun a ha => ?_, fun a ha => ⟨?_, unheard_refl arr a⟩⟩
  · obtain rfl := Option.some.inj ha
    refine .asked id ⟨fun i => ?_, hl.jobs, hl.waits, hl.resolved⟩ hn
    rw [insert_get]
    by_cases hi : id = i
    · simp [hi]
    · have hno : asked[i]? ≠ some x := fun he => by cases (hl.asked i).mp he
      simp [hi, hno]
  · exact ⟨insert_some_iff (fun he => ha (congrArg some he)) (by rw [hfree]; exact nofun), rfl, fun _ => Iff.rfl, rfl⟩

theorem other_advances (events : TreeMap RequestId Call) (hid : asked[id]? = none) :
    Advances none js { js with events := events } asked (asked.erase id) arr arr := by
  refine ⟨nofun, fun a _ => ⟨⟨erase_some_iff ?_, rfl, fun _ => Iff.rfl, rfl⟩, unheard_refl arr a⟩⟩
  rw [hid]; exact nofun

theorem filter_single (hq : js.queue = []) (j : Job) (a : Nat) :
    (js.queue ++ [j]).filter (fun j => j.acquirer = a) = if j.acquirer = a then [j] else [] := by
  rw [hq, nil_append, filter_singleton]
  simp

theorem unheard_answered (ha : a ≠ x) : Unheard arr (arr ++ [.answered x success token]) a := by
  refine ⟨fun s t => ?_, ?_⟩
  · rw [mem_append, mem_singleton]
    refine or_iff_left ?_
    intro he
    cases he
    exact ha rfl
  · rw [granted_answered]
    exact or_iff_left fun he => ha he.1

/-- The answer to acquisition `x`, handed over by `agentCallback`. -/
theorem answer_advances (events : TreeMap RequestId Call) (hops : Nat) (hq : js.queue = [])
    (hid : asked[id]? = some x) (answer : Option (Bool × String)) (h : Stage js asked arr x) :
    Advances (some x) js { js with events := events, queue := js.queue ++ [.put hops x answer] } asked (asked.erase id)
      arr (arr ++ (answer.map fun b => Arrival.answered x b.1 b.2).toList) := by
  refine ⟨fun a ha => ?_, fun a ha => ?_⟩
  · obtain rfl := Option.some.inj ha
    obtain ⟨hl, hn⟩ := stage_asked h hid
    have hloc : Located { js with events := events, queue := js.queue ++ [.put hops x answer] } (asked.erase id) x none
        [.put hops x answer] none 0 := by
      refine ⟨fun i => ?_, by rw [filter_single hq]; exact if_pos rfl, hl.waits, hl.resolved⟩
      refine iff_of_false (fun hi => ?_) (fun hi => nomatch hi)
      rw [erase_get] at hi
      split at hi
      · cases hi
      · rename_i hne
        exact hne (Option.some.inj ((hl.asked i).mp hi))
    cases answer with
    | none =>
      rw [map_none, toList_none, append_nil]
      refine .idle [.put hops x none] ?_ hloc hn
      intro j hj
      exact ⟨hops, mem_singleton.mp hj⟩
    | some b =>
      obtain ⟨success, token⟩ := b
      rw [map_some, toList_some]
      have hmem : ∀ s t, .answered x s t ∈ arr ++ [.answered x success token] → s = success ∧ t = token := by
        intro s t hm
        rcases mem_append.mp hm with hm | hm
        · exact absurd hm (hn s t)
        · cases mem_singleton.mp hm
          exact ⟨rfl, rfl⟩
      cases success with
      | true => exact .due _ (Or.inl ⟨hops, token, rfl⟩) hloc (granted_answered.mpr (Or.inr ⟨rfl, rfl⟩))
      | false =>
        refine .parked hops token hloc ⟨mem_append_right _ (mem_singleton.mpr rfl), hmem, ?_⟩
        intro hg
        obtain ⟨t, hg | hg⟩ := hg
        · cases (hmem true t hg).1
        · rcases pair_sublist_concat.mp hg with hg | ⟨hg, -⟩
          · exact hn false t (hg.subset mem_cons_self)
          · cases hg
  · have hne : x ≠ a := fun he => ha (congrArg some he)
    refine ⟨⟨erase_some_iff ?_, ?_, fun _ => Iff.rfl, rfl⟩, ?_⟩
    · rw [hid]; exact ha
    · rw [filter_single hq, hq]; exact if_neg hne
    · cases answer with
      | none =>
        rw [map_none, toList_none, append_nil]
        exact unheard_refl arr a
      | some b => exact unheard_answered (Ne.symm hne)

theorem unheard_notified (h : Stage js asked arr a) (hq : js.queue = [])
    (hno : js.resourceWaitList[token]? ≠ some a) : Unheard arr (arr ++ [.notified token]) a := by
  refine ⟨fun s t => ?_, ?_⟩
  · rw [mem_append, mem_singleton]
    exact or_iff_left fun he => by cases he
  · rw [granted_notified]
    constructor
    · intro hg
      rcases hg with hg | hm
      · exact hg
      · by_contra hg
        exact hno (stage_answered h hq hm hg)
    · exact Or.inl

theorem notify_advances (hq : js.queue = []) (token : String) (h : ∀ a, Stage js asked arr a) :
    Advances js.resourceWaitList[token]? js (resourceNotification js token) asked asked arr (arr ++ [.notified token]) := by
  refine ⟨fun a ha => ?_, fun a ha => ⟨?_, unheard_notified (h a) hq ha⟩⟩
  · obtain ⟨hl, hw⟩ := stage_waiting (h a) ha
    simp only [resourceNotification, ha]
    refine .due (.wake a) (Or.inr rfl) ⟨hl.asked, by rw [filter_single hq]; exact if_pos rfl, fun t => ?_, hl.resolved⟩
      (granted_notified.mpr (Or.inr hw.answer))
    refine iff_of_false (fun ht => ?_) nofun
    rw [erase_get] at ht
    split at ht
    · cases ht
    · rename_i hne
      exact hne (Option.some.inj ((hl.waits t).mp ht))
  · unfold resourceNotification
    cases hw : js.resourceWaitList[token]? with
    | none => exact unmoved_refl js asked a
    | some x =>
      rw [hw] at ha
      have hne : x ≠ a := fun he => ha (congrArg some he)
      refine ⟨fun _ => Iff.rfl, ?_, erase_some_iff (by rw [hw]; exact ha), rfl⟩
      rw [filter_single hq, hq]
      exact if_neg hne

/-! ## Microtasks -/

variable {j : Job} {q : List Job}

theorem stage_job (h : Stage js asked arr j.acquirer) (hq : js.queue = j :: q) :
    ∃ rest, Located { js with queue := q } asked j.acquirer none rest none 0 ∧
      ((∃ h, j = .put h j.acquirer none) ∧ (∀ k ∈ rest, ∃ h, k = .put h j.acquirer none) ∧ Unanswered arr j.acquirer ∨
        (∃ h token, j = .put h j.acquirer (some (false, token)) ∧ rest = [] ∧ Waits arr j.acquirer token) ∨
        Due j.acquirer j ∧ rest = [] ∧ Granted arr j.acquirer) := by
  have hfilter : js.queue.filter (fun k => k.acquirer = j.acquirer) = j :: q.filter (fun k => k.acquirer = j.acquirer) := by
    rw [hq]; exact filter_cons_of_pos (decide_eq_true rfl)
  have hpop : ∀ {jobs}, Located js asked j.acquirer none jobs none 0 →
      ∃ rest, jobs = j :: rest ∧ Located { js with queue := q } asked j.acquirer none rest none 0 :=
    fun hl => ⟨_, hl.jobs.symm.trans hfilter, hl.asked, rfl, hl.waits, hl.resolved⟩
  have hnone : ∀ {id token count}, ¬ Located js asked j.acquirer id [] token count := by
    intro id token count hl
    have := hl.jobs
    rw [hfilter] at this
    cases this
  cases h with
  | idle jobs hj hl hn =>
    obtain ⟨rest, rfl, hpopped⟩ := hpop hl
    exact ⟨rest, hpopped, Or.inl ⟨hj j mem_cons_self, fun k hk => hj k (mem_cons_of_mem _ hk), hn⟩⟩
  | parked h token hl hw =>
    obtain ⟨rest, he, hl⟩ := hpop hl
    obtain ⟨hj, hrest⟩ := List.cons.inj he
    exact ⟨rest, hl, Or.inr (Or.inl ⟨h, token, hj.symm, hrest.symm, hw⟩)⟩
  | due k hk hl hg =>
    obtain ⟨rest, he, hl⟩ := hpop hl
    obtain ⟨rfl, hrest⟩ := List.cons.inj he
    exact ⟨rest, hl, Or.inr (Or.inr ⟨hk, hrest.symm, hg⟩)⟩
  | asked _ hl _ | waiting _ hl _ | resolved hl _ => exact absurd hl hnone

theorem located_requeue {rest : List Job} (k : Job) (hk : k.acquirer = a) (hl : Located js asked a none rest none 0) :
    Located { js with queue := js.queue ++ [k] } asked a none (rest ++ [k]) none 0 := by
  refine ⟨hl.asked, ?_, hl.waits, hl.resolved⟩
  rw [filter_append, hl.jobs, filter_singleton]
  simp [hk]

theorem located_resolve (hl : Located js asked a none [] none 0) :
    Located { js with resolved := js.resolved ++ [a] } asked a none [] none 1 := by
  refine ⟨hl.asked, hl.jobs, hl.waits, ?_⟩
  rw [count_append, hl.resolved, count_singleton_self]

theorem located_wait (hl : Located js asked a none [] none 0) :
    Located { js with resourceWaitList := js.resourceWaitList.insert token a } asked a none [] (some token) 0 := by
  refine ⟨hl.asked, hl.jobs, fun t => ?_, hl.resolved⟩
  rw [insert_get]
  by_cases ht : token = t
  · simp [ht]
  · have hno : js.resourceWaitList[t]? ≠ some a := fun he => by cases (hl.waits t).mp he
    simp [ht, hno]

/-- Answers to acquisitions have different tokens. -/
def Owned (arr : List Arrival) : Prop :=
  ∀ a b s u token, .answered a s token ∈ arr → .answered b u token ∈ arr → a = b

theorem filter_other {k : Job} (ha : k.acquirer ≠ a) :
    (q ++ [k]).filter (fun j => j.acquirer = a) = q.filter (fun j => j.acquirer = a) := by
  rw [filter_append, filter_singleton]
  simp [ha]

theorem job_unmoved (ha : j.acquirer ≠ a) (hq : js.queue = j :: q)
    (hfree : ∀ h token, j = .put h j.acquirer (some (false, token)) → js.resourceWaitList[token]? ≠ some a) :
    Unmoved js (runJob { js with queue := q } j) asked asked a := by
  have hpop : js.queue.filter (fun j => j.acquirer = a) = q.filter (fun j => j.acquirer = a) := by
    rw [hq]; exact filter_cons_of_neg (by simpa using ha)
  have hcount : (js.resolved ++ [j.acquirer]).count a = js.resolved.count a := by
    rw [count_append, count_singleton]
    simp [ha]
  cases j with
  | wake x => exact ⟨fun _ => Iff.rfl, hpop.symm, fun _ => Iff.rfl, hcount⟩
  | put h x answer =>
    cases h with
    | succ h => exact ⟨fun _ => Iff.rfl, (filter_other (k := .put h x answer) ha).trans hpop.symm, fun _ => Iff.rfl, rfl⟩
    | zero =>
      rcases answer with _ | ⟨success, token⟩
      · exact ⟨fun _ => Iff.rfl, hpop.symm, fun _ => Iff.rfl, rfl⟩
      · cases success with
        | true => exact ⟨fun _ => Iff.rfl, hpop.symm, fun _ => Iff.rfl, hcount⟩
        | false => exact ⟨fun _ => Iff.rfl, hpop.symm, insert_some_iff ha (hfree 0 token rfl), rfl⟩

theorem job_moved (h : Stage js asked arr j.acquirer) (hq : js.queue = j :: q) :
    Stage (runJob { js with queue := q } j) asked arr j.acquirer := by
  obtain ⟨rest, hl, hcase⟩ := stage_job h hq
  cases j with
  | wake x =>
    rcases hcase with ⟨⟨h, he⟩, -⟩ | ⟨h, token, he, -⟩ | ⟨-, rfl, hg⟩
    · cases he
    · cases he
    · exact .resolved (located_resolve hl) hg
  | put n x answer =>
    rcases hcase with ⟨⟨k, he⟩, hrest, hn⟩ | ⟨k, token, he, rfl, hw⟩ | ⟨hdue, rfl, hg⟩
    · obtain ⟨-, -, rfl⟩ := Job.put.inj he
      cases n with
      | zero => exact .idle rest hrest ⟨hl.asked, hl.jobs, hl.waits, hl.resolved⟩ hn
      | succ n =>
        refine .idle (rest ++ [Job.put n x none]) ?_ (located_requeue (.put n x none) rfl hl) hn
        intro k hk
        rcases mem_append.mp hk with hk | hk
        · exact hrest k hk
        · exact ⟨n, mem_singleton.mp hk⟩
    · obtain ⟨-, -, rfl⟩ := Job.put.inj he
      cases n with
      | zero => exact .waiting token (located_wait hl) hw
      | succ n => exact .parked n token (located_requeue (.put n x (some (false, token))) rfl hl) hw
    · rcases hdue with ⟨k, token, he⟩ | he
      · obtain ⟨-, -, rfl⟩ := Job.put.inj he
        cases n with
        | zero => exact .resolved (located_resolve hl) hg
        | succ n => exact .due _ (Or.inl ⟨n, token, rfl⟩) (located_requeue (.put n x (some (true, token))) rfl hl) hg
      · cases he

theorem job_advances (hq : js.queue = j :: q) (ho : Owned arr) (h : ∀ a, Stage js asked arr a) :
    Advances (some j.acquirer) js (runJob { js with queue := q } j) asked asked arr arr := by
  refine ⟨fun a ha => ?_, fun a ha => ⟨job_unmoved (fun he => ha (congrArg some he)) hq ?_, unheard_refl arr a⟩⟩
  · obtain rfl := Option.some.inj ha
    exact job_moved (h _) hq
  · -- two acquisitions would wait for one token
    intro k token hj hw
    have hx := (stage_waiting (h a) hw).2.answer
    obtain ⟨rest, -, hcase⟩ := stage_job (h j.acquirer) hq
    rcases hcase with ⟨⟨i, he⟩, -⟩ | ⟨i, token', he, -, hwaits⟩ | ⟨⟨i, token', he⟩ | he, -⟩
    · rw [hj] at he; cases he
    · rw [hj] at he
      cases he
      exact ha (congrArg some (ho _ _ _ _ token hwaits.answer hx))
    · rw [hj] at he; cases he
    · rw [hj] at he; cases he

end Aworker.AgentChannel
