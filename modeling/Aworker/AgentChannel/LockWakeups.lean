/-
  Aworker.AgentChannel.LockWakeups — runs of the worker's locks.

  - `workerStep_inv`: every step keeps every acquisition where the arrivals call for it.
  Also `channelStep_timers`, `drain`, `lock_wakeups`.
-/

import Aworker.AgentChannel.Resources

namespace Aworker.AgentChannel

open List Option

open Std (TreeMap)
open Aworker.Lib (run run_cons run_inv Along along_replicate insert_get erase_get insert_some_iff erase_some_iff mem_of_get)
open Aworker.Ipc (Protobuf RequestId RequestKind CanonicalCode)

variable (P : Protobuf) (R : ResourceFields P) (hops : Nat)

/-! ## The channel underneath -/

structure Live (c : Channel P) : Prop where
  jsOnly : JsOnly P c
  socket : c.socket.isSome = true

variable {c : Channel P}

theorem opened_live (h : Opened P c) : Live P c := ⟨opened_jsOnly P h, by rw [h.socket]; rfl⟩

theorem live_usesNull (h : Live P c) (e : ChannelEv P) : ¬ UsesNull P c e := by
  have hs : c.socket ≠ none := isSome_iff_ne_none.mp h.socket
  cases e with
  | jsCall _ _ | incoming _ _ | ref | unref | feedback _ _ => exact fun hu => hs hu.1
  | _ => exact fun hu => hu

variable {c' : Channel P} {e : ChannelEv P}

theorem channelStep_live (h : Live P c) (he : e ≠ .disconnected) (hs : channelStep P c e = some c') : Live P c' := by
  refine ⟨channelStep_jsOnly P h.jsOnly hs, ?_⟩
  have htaken : (takenSocket P c).isSome = true := by
    unfold takenSocket
    split
    · rfl
    · exact h.socket
  have hdropped : (droppedSocket P c).isSome = true := by
    unfold droppedSocket
    split
    · rfl
    · exact h.socket
  cases channelStep_moves P h.jsOnly hs with
  | crash _ hu => exact absurd hu (live_usesNull P h e)
  | jsCall | incoming | ref => exact htaken
  | complete =>
    rw [callback_eq]
    show (if c.refCount = 1 then c.socket.map fun _ => false else c.socket).isSome = true
    split
    · rw [isSome_map]; exact h.socket
    · exact h.socket
  | unknown | returned | unknownFeedback => exact h.socket
  | feedback | unref => exact hdropped
  | disconnected => exact absurd rfl he

variable {kind : RequestKind} {body : P.Msg}

theorem channelStep_call (h : Live P c) (hs : channelStep P c (.jsCall kind body) = some c') :
    c.seq ∉ c.delegate.timers ∧ ∀ x, x ∈ c'.delegate.timers ↔ x = c.seq ∨ x ∈ c.delegate.timers := by
  cases channelStep_moves P h.jsOnly hs with
  | crash _ hu => exact absurd hu (live_usesNull P h _)
  | jsCall _ _ d _ hd =>
    rw [h.socket] at hd
    obtain ⟨-, hfresh, rfl⟩ := Ipc.request_some P hd
    refine ⟨hfresh, fun x => ?_⟩
    show x ∈ c.delegate.timers.insert c.seq c.delegate.nextTimer ↔ _
    rw [TreeMap.mem_insert, Std.LawfulEqOrd.compare_eq_iff_eq, @eq_comm _ c.seq x]
  | complete _ _ _ _ _ _ _ he => rcases he with he | he <;> cases he

theorem channelStep_timers (h : Live P c) (hs : channelStep P c e = some c')
    {x : RequestId} (hx : x ∈ c.delegate.timers) :
    x ∈ c'.delegate.timers ∨ (∃ code body, e = .response x code body) ∨ ∃ t, e = .expire t ∧ c.delegate.armed[t]? = some x := by
  cases channelStep_moves P h.jsOnly hs with
  | crash _ hu => exact absurd hu (live_usesNull P h e)
  | jsCall => exact Or.inl (((channelStep_call P h hs).2 x).mpr (Or.inr hx))
  | complete _ id t _ code body d he _ _ ht hcomp =>
    by_cases hid : id = x
    · subst hid
      right
      rcases he with rfl | rfl
      · exact Or.inl ⟨code, body, rfl⟩
      · exact Or.inr ⟨t, rfl, (h.jsOnly.table.armed t id).mpr ht⟩
    · left
      rw [callback_eq]
      show x ∈ d.timers
      rw [hcomp.timers, TreeMap.mem_erase]
      exact ⟨fun he => hid (Std.LawfulEqOrd.eq_of_compare he), hx⟩
  | unknown | returned | incoming | unknownFeedback | ref | unref | disconnected => exact Or.inl hx
  | feedback _ _ d _ _ hsame =>
    left
    show x ∈ d.timers
    rw [hsame.timers]; exact hx

/-! ## Whole runs -/

structure Acquisitions (s : Worker P) : Prop where
  live : Live P s.channel
  /-- what the agent has not answered is open in the delegate -/
  pending : ∀ (id : RequestId) (a : Nat), s.asked[id]? = some a → id ∈ s.channel.delegate.timers
  link : ∀ (id : RequestId) (a : Nat), s.js.events[id]? = some (.acquire a) ↔ s.asked[id]? = some a
  owned : Owned s.arrivals
  fresh : ∀ a, s.acquirers ≤ a → Located s.js s.asked a none [] none 0 ∧ Unanswered s.arrivals a
  stage : ∀ a, Stage s.js s.asked s.arrivals a

variable {s s' : Worker P}

theorem opened_acquisitions (h : Opened P c) : Acquisitions P { channel := c } := by
  have hl : ∀ a, Located {} ∅ a none [] none 0 := fun a => ⟨by simp, rfl, by simp, rfl⟩
  have hn : ∀ a, Unanswered [] a := fun a success token hm => by cases hm
  refine ⟨opened_live P h, by simp, by simp, ?_, fun a _ => ⟨hl a, hn a⟩, fun a => .idle [] nofun (hl a) (hn a)⟩
  intro a b s u token hm
  cases hm

theorem acquisitions_advance {x : Option Nat} (h : Acquisitions P s) (hn : s'.acquirers = s.acquirers)
    (hx : ∀ a, x = some a → a < s.acquirers) (hadv : Advances x s.js s'.js s.asked s'.asked s.arrivals s'.arrivals)
    (hlive : Live P s'.channel)
    (hpending : ∀ (id : RequestId) (a : Nat), s'.asked[id]? = some a → id ∈ s'.channel.delegate.timers)
    (hlink : ∀ (id : RequestId) (a : Nat), s'.js.events[id]? = some (.acquire a) ↔ s'.asked[id]? = some a)
    (howned : Owned s'.arrivals) : Acquisitions P s' := by
  refine ⟨hlive, hpending, hlink, howned, fun a ha => ?_, advances_stage hadv h.stage⟩
  rw [hn] at ha
  obtain ⟨hm, hu⟩ := hadv.others a (fun he => absurd (hx a he) (Nat.not_lt.mpr ha))
  exact ⟨located_unmoved hm (h.fresh a ha).1, unanswered_unheard hu (h.fresh a ha).2⟩

variable {id : RequestId} {a : Nat}

theorem pending_step (h : Acquisitions P s) (hs : channelStep P s.channel e = some c)
    (hid : s.asked[id]? = some a) (hresp : ∀ code body, e ≠ .response id code body)
    (hexp : ∀ t, e = .expire t → s.channel.delegate.armed[t]? ≠ some id) : id ∈ c.delegate.timers := by
  rcases channelStep_timers P h.live hs (h.pending id a hid) with hm | ⟨code, body, he⟩ | ⟨t, he, ht⟩
  · exact hm
  · exact absurd he (hresp code body)
  · exact absurd ht (hexp t he)

variable {js : Js}

theorem agentCallback_other (hops : Nat) (answer : Option (Bool × String))
    (hno : ∀ a, js.events[id]? ≠ some (.acquire a)) :
    ∃ events, agentCallback hops js id answer = { js with events := events } ∧
      ∀ (i : RequestId) (a : Nat), events[i]? = some (.acquire a) ↔ js.events[i]? = some (.acquire a) := by
  unfold agentCallback
  split
  · exact ⟨js.events, rfl, fun _ _ => Iff.rfl⟩
  · exact ⟨js.events.erase id, rfl, fun i a => erase_some_iff (hno a) i⟩
  · exact absurd ‹_› (hno _)

theorem call_inv (h : Acquisitions P s) (hs : channelStep P s.channel (.jsCall kind body) = some c) :
    Acquisitions P { s with channel := c, js := { s.js with events := s.js.events.insert s.channel.seq .other } } := by
  obtain ⟨hseq, hmem⟩ := channelStep_call P h.live hs
  refine acquisitions_advance P h rfl (by nofun) (events_advances _) (channelStep_live P h.live (by nofun) hs) ?_ ?_ h.owned
  · intro id a hid
    exact (hmem id).mpr (Or.inr (h.pending id a hid))
  · intro id a
    have hne : s.js.events[s.channel.seq]? ≠ some (.acquire a) := fun he => hseq (h.pending _ a ((h.link _ a).mp he))
    exact (insert_some_iff (by nofun) hne id).trans (h.link id a)

theorem acquire_inv (h : Acquisitions P s) (hs : channelStep P s.channel (.jsCall .resourcePut body) = some c) :
    Acquisitions P { s with
      channel := c
      js := { s.js with events := s.js.events.insert s.channel.seq (.acquire s.acquirers) }
      acquirers := s.acquirers + 1
      asked := s.asked.insert s.channel.seq s.acquirers } := by
  obtain ⟨hseq, hmem⟩ := channelStep_call P h.live hs
  have hfree : s.asked[s.channel.seq]? = none := by
    refine eq_none_iff_forall_ne_some.mpr ?_
    intro a ha
    exact hseq (h.pending _ a ha)
  obtain ⟨hl, hn⟩ := h.fresh s.acquirers le_rfl
  have hadv := ask_advances (s.js.events.insert s.channel.seq (.acquire s.acquirers)) hfree hl hn
  refine ⟨channelStep_live P h.live (by nofun) hs, ?_, ?_, h.owned, ?_, advances_stage hadv h.stage⟩
  · intro id a hid
    rw [insert_get] at hid
    refine (hmem id).mpr ?_
    split at hid
    · exact Or.inl (Eq.symm ‹_›)
    · exact Or.inr (h.pending id a hid)
  · intro id a
    rw [insert_get, insert_get]
    split
    · simp
    · exact h.link id a
  · intro a ha
    have ha : s.acquirers + 1 ≤ a := ha
    obtain ⟨hm, hu⟩ := hadv.others a (fun he => by have := Option.some.inj he; omega)
    have hfresh := h.fresh a (by omega)
    exact ⟨located_unmoved hm hfresh.1, unanswered_unheard hu hfresh.2⟩

theorem known_asked (h : Acquisitions P s) (hid : s.asked[id]? = some a) : a < s.acquirers := by
  by_contra ha
  cases ((h.fresh a (Nat.not_lt.mp ha)).1.asked id).mp hid

variable {token : String}

theorem known_waiting (h : Acquisitions P s) (ht : s.js.resourceWaitList[token]? = some a) : a < s.acquirers := by
  by_contra ha
  cases ((h.fresh a (Nat.not_lt.mp ha)).1.waits token).mp ht

theorem known_job (h : Acquisitions P s) {j : Job} (hj : j ∈ s.js.queue) : j.acquirer < s.acquirers := by
  by_contra ha
  have hnil := (h.fresh j.acquirer (Nat.not_lt.mp ha)).1.jobs
  exact filter_eq_nil_iff.mp hnil j hj (decide_eq_true rfl)

variable {x : Nat}

theorem answered_eq (hid : s.asked[id]? = some x) (answer : Option (Bool × String)) :
    answered P s id answer = (answer.map fun b => Arrival.answered x b.1 b.2).toList := by
  unfold answered
  rw [hid]
  cases answer <;> rfl

variable {code : CanonicalCode} {answer : Option (Bool × String)}

theorem answer_owned {body : Option P.Msg}
    (h : Owned s.arrivals) (hid : s.asked[id]? = some x) (ha : Assumed P R s (.response id code body))
    (hans : answerOf P R code body = some answer) : Owned (s.arrivals ++ (answer.map fun b => Arrival.answered x b.1 b.2).toList) := by
  cases answer with
  | none => simpa using h
  | some b =>
    have hnew : b.2 ∉ s.arrivals.filterMap Arrival.answerToken := by
      unfold answerOf at hans
      split at hans
      · obtain ⟨m, rfl, hb⟩ := map_eq_some_iff.mp hans
        have hcode : code = .ok := ‹_›
        subst hcode
        obtain rfl := Option.some.inj hb
        exact ha (mem_of_get hid)
      · cases Option.some.inj hans
    have hfresh : ∀ y u, .answered y u b.2 ∉ s.arrivals := by
      intro y u hm
      exact hnew (mem_filterMap.mpr ⟨_, hm, rfl⟩)
    intro y z u v token hy hz
    simp only [map_some, toList_some, mem_append, mem_singleton] at hy hz
    rcases hy with hy | hy
    · rcases hz with hz | hz
      · exact h y z u v token hy hz
      · cases hz
        exact absurd hy (hfresh y u)
    · rcases hz with hz | hz
      · cases hy
        exact absurd hz (hfresh z v)
      · cases hy
        cases hz
        rfl

theorem response_inv {body : Option P.Msg}
    (h : Acquisitions P s) (ha : Assumed P R s (.response id code body)) (hq : s.js.queue = [])
    (hs : channelStep P s.channel (.response id code body) = some c) (hans : answerOf P R code body = some answer) :
    Acquisitions P { s with
      channel := c
      js := if id ∈ s.channel.delegate.callbacks then agentCallback hops s.js id answer else s.js
      asked := s.asked.erase id
      arrivals := s.arrivals ++ answered P s id answer } := by
  have hlive := channelStep_live P h.live (by nofun) hs
  have hpending : ∀ (i : RequestId) (a : Nat), (s.asked.erase id)[i]? = some a → i ∈ c.delegate.timers := by
    intro i a hi
    rw [erase_get] at hi
    split at hi
    · cases hi
    · rename_i hne
      exact pending_step P h hs hi (fun code body he => hne (by cases he; rfl)) (by nofun)
  cases hid : s.asked[id]? with
  | none =>
    have hno : ∀ a, s.js.events[id]? ≠ some (.acquire a) := by
      intro a he
      rw [h.link, hid] at he
      cases he
    have hjs : ∃ events, (if id ∈ s.channel.delegate.callbacks then agentCallback hops s.js id answer else s.js) =
        { s.js with events := events } ∧
        ∀ (i : RequestId) (a : Nat), events[i]? = some (.acquire a) ↔ s.js.events[i]? = some (.acquire a) := by
      split
      · exact agentCallback_other hops answer hno
      · exact ⟨s.js.events, rfl, fun _ _ => Iff.rfl⟩
    obtain ⟨events, hjs, hev⟩ := hjs
    have hanswered : answered P s id answer = [] := by unfold answered; rw [hid]
    rw [hjs, hanswered, append_nil]
    refine acquisitions_advance P h rfl (by nofun) (other_advances events hid) hlive hpending ?_ h.owned
    intro i a
    exact ((hev i a).trans (h.link i a)).trans (erase_some_iff (by rw [hid]; nofun) i).symm
  | some x =>
    have hmem : id ∈ s.channel.delegate.callbacks := (h.live.jsOnly.table.keys id).mpr (Or.inl (h.pending id x hid))
    have hev := (h.link id x).mpr hid
    have hjs : agentCallback hops s.js id answer =
        { s.js with events := s.js.events.erase id, queue := s.js.queue ++ [.put hops x answer] } := by
      simp only [agentCallback, hev]
    rw [if_pos hmem, hjs, answered_eq P hid]
    refine acquisitions_advance P h rfl ?_ (answer_advances _ hops hq hid answer (h.stage x)) hlive hpending ?_
      (answer_owned P R h.owned hid ha hans)
    · intro a he
      cases he
      exact known_asked P h hid
    · intro i a
      show (s.js.events.erase id)[i]? = some (.acquire a) ↔ (s.asked.erase id)[i]? = some a
      rw [erase_get, erase_get]
      split
      · exact iff_of_false (by nofun) (by nofun)
      · exact h.link i a

theorem channel_inv (h : Acquisitions P s) (hs : channelStep P s.channel e = some c)
    (hdisc : e ≠ .disconnected) (hresp : ∀ id code body, e ≠ .response id code body) (hexp : ∀ t, e ≠ .expire t) :
    Acquisitions P { s with channel := c } :=
  ⟨channelStep_live P h.live hdisc hs,
    fun id _ hid => pending_step P h hs hid (hresp id) fun t he => absurd he (hexp t), h.link, h.owned, h.fresh, h.stage⟩

theorem expire_inv {t : Nat} (h : Acquisitions P s) (ha : Assumed P R s (.expire t))
    (ht : s.channel.delegate.armed[t]? = some id) (hs : channelStep P s.channel (.expire t) = some c) :
    Acquisitions P { s with channel := c, js := agentCallback hops s.js id none } := by
  have hid : s.asked[id]? = none := TreeMap.getElem?_eq_none (ha id ht)
  have hno : ∀ a, s.js.events[id]? ≠ some (.acquire a) := by
    intro a he
    rw [h.link, hid] at he
    cases he
  obtain ⟨events, hjs, hev⟩ := agentCallback_other hops none hno
  rw [hjs]
  refine acquisitions_advance P h rfl (by nofun) (events_advances events) (channelStep_live P h.live (by nofun) hs) ?_ ?_ h.owned
  · intro i a hi
    refine pending_step P h hs hi (by nofun) ?_
    intro t' he harm
    cases he
    rw [ht] at harm
    obtain rfl := Option.some.inj harm
    rw [hid] at hi
    cases hi
  · intro i a
    exact (hev i a).trans (h.link i a)

theorem notification_inv (h : Acquisitions P s) (hq : s.js.queue = []) :
    Acquisitions P { s with js := resourceNotification s.js token, arrivals := s.arrivals ++ [.notified token] } := by
  have hevents : (resourceNotification s.js token).events = s.js.events := by
    unfold resourceNotification
    split <;> rfl
  refine acquisitions_advance P h rfl (fun a ha => known_waiting P h ha) (notify_advances hq token h.stage) h.live h.pending ?_ ?_
  · show ∀ (id : RequestId) (a : Nat), (resourceNotification s.js token).events[id]? = some (.acquire a) ↔ s.asked[id]? = some a
    rw [hevents]
    exact h.link
  · intro a b u v t ha hb
    refine h.owned a b u v t ?_ ?_
    · rcases mem_append.mp ha with ha | ha
      · exact ha
      · cases mem_singleton.mp ha
    · rcases mem_append.mp hb with hb | hb
      · exact hb
      · cases mem_singleton.mp hb

theorem microtask_inv (h : Acquisitions P s) (hs : microtask s.js = some js) : Acquisitions P { s with js := js } := by
  unfold microtask at hs
  split at hs
  · cases hs
  · rename_i j q hq
    obtain rfl := Option.some.inj hs
    have hevents : (runJob { s.js with queue := q } j).events = s.js.events := by
      unfold runJob
      split <;> rfl
    refine acquisitions_advance P h rfl ?_ (job_advances hq h.owned h.stage) h.live h.pending ?_ h.owned
    · intro a ha
      cases ha
      exact known_job P h (by rw [hq]; exact mem_cons_self)
    · show ∀ (id : RequestId) (a : Nat), (runJob { s.js with queue := q } j).events[id]? = some (.acquire a) ↔ s.asked[id]? = some a
      rw [hevents]
      exact h.link

theorem workerStep_inv {e : WorkerEv P} (h : Acquisitions P s) (ha : Assumed P R s e) (hs : workerStep P R hops s e = some s') :
    Acquisitions P s' := by
  cases e with
  | acquire body =>
    obtain ⟨c, hc, rfl⟩ := map_eq_some_iff.mp hs
    exact acquire_inv P h hc
  | call kind body =>
    obtain ⟨c, hc, rfl⟩ := map_eq_some_iff.mp hs
    exact call_inv P h hc
  | response id code body =>
    simp only [workerStep] at hs
    split at hs
    · obtain ⟨c, hc, hs⟩ := bind_eq_some_iff.mp hs
      obtain ⟨answer, hans, rfl⟩ := map_eq_some_iff.mp hs
      exact response_inv P R hops h ha ‹_› hc hans
    · cases hs
  | expire t =>
    simp only [workerStep] at hs
    split at hs
    · obtain ⟨id, hid, hs⟩ := bind_eq_some_iff.mp hs
      obtain ⟨c, hc, rfl⟩ := map_eq_some_iff.mp hs
      exact expire_inv P R hops h ha hid hc
    · cases hs
  | returned =>
    simp only [workerStep] at hs
    split at hs
    · obtain ⟨c, hc, rfl⟩ := map_eq_some_iff.mp hs
      exact channel_inv P h hc (by nofun) (by nofun) (by nofun)
    · cases hs
  | notification id token =>
    simp only [workerStep] at hs
    split at hs
    · obtain ⟨c, hc, hs⟩ := bind_eq_some_iff.mp hs
      obtain ⟨c', hc', rfl⟩ := map_eq_some_iff.mp hs
      -- `Emit`, the handler's feedback, and the rest of the handler
      have h1 := channel_inv P h hc (by nofun) (by nofun) (by nofun)
      have h2 := channel_inv P h1 hc' (by nofun) (by nofun) (by nofun)
      exact notification_inv P h2 ‹_›
    · cases hs
  | other e =>
    simp only [workerStep] at hs
    split at hs
    · rename_i hcond
      obtain ⟨c, hc, rfl⟩ := map_eq_some_iff.mp hs
      refine channel_inv P h hc ?_ ?_ ?_
      · intro he; rw [he] at hcond; cases hcond.1
      · intro id code body he; rw [he] at hcond; cases hcond.1
      · intro t he; rw [he] at hcond; cases hcond.1
    · cases hs
  | microtask =>
    obtain ⟨js, hjs, rfl⟩ := map_eq_some_iff.mp hs
    exact microtask_inv P h hjs

/-! ## Draining the microtasks -/

def Job.turns : Job → Nat
  | .put h _ _ => h + 1
  | .wake _ => 1

def turns (js : Js) : Nat := (js.queue.map Job.turns).sum

theorem microtask_turns {js' : Js} (hs : microtask js = some js') : turns js' + 1 = turns js := by
  unfold microtask at hs
  split at hs
  · cases hs
  · rename_i j q hq
    obtain rfl := Option.some.inj hs
    unfold turns
    rw [hq]
    unfold runJob
    split <;> simp [Job.turns] <;> omega

/-- `TickTaskQueue` comes to its end. -/
theorem drain (s : Worker P) : ∃ n u, run (workerStep P R hops) s (List.replicate n .microtask) = some u ∧
    u.js.queue = [] ∧ u.arrivals = s.arrivals := by
  induction hn : turns s.js generalizing s with
  | zero =>
    refine ⟨0, s, rfl, ?_, rfl⟩
    cases hq : s.js.queue with
    | nil => rfl
    | cons j q =>
      unfold turns at hn
      rw [hq] at hn
      cases j <;> simp [Job.turns] at hn
  | succ n ih =>
    cases hjs : microtask s.js with
    | none =>
      unfold microtask at hjs
      split at hjs
      · exact ⟨0, s, rfl, ‹_›, rfl⟩
      · cases hjs
    | some js =>
      have hturns := microtask_turns hjs
      obtain ⟨m, u, hu, hq, harr⟩ := ih { s with js := js } (by show turns js = n; omega)
      have hstep : workerStep P R hops s .microtask = some { s with js := js } := by simp [workerStep, hjs]
      exact ⟨m + 1, u, run_cons.mpr ⟨_, hstep, hu⟩, hq, harr⟩

theorem resolved_granted (h : Acquisitions P s) (ha : a ∈ s.js.resolved) : Granted s.arrivals a := by
  have hpos : s.js.resolved.count a ≠ 0 := Nat.pos_iff_ne_zero.mp (count_pos_iff.mpr ha)
  cases h.stage a with
  | idle _ _ hl _ | asked _ hl _ | parked _ _ hl _ | waiting _ hl _ | due _ _ hl _ => exact absurd hl.resolved hpos
  | resolved _ hg => exact hg

theorem resolved_once (h : Acquisitions P s) (a : Nat) : s.js.resolved.count a ≤ 1 := by
  cases h.stage a with
  | idle _ _ hl _ | asked _ hl _ | parked _ _ hl _ | waiting _ hl _ | due _ _ hl _ => exact hl.resolved.le.trans (Nat.zero_le 1)
  | resolved hl _ => exact hl.resolved.le

theorem granted_resolved (h : Acquisitions P s) (hq : s.js.queue = []) (hg : Granted s.arrivals a) :
    a ∈ s.js.resolved := by
  have hanswer : ∃ success token, .answered a success token ∈ s.arrivals := by
    obtain ⟨token, hm | hm⟩ := hg
    · exact ⟨true, token, hm⟩
    · exact ⟨false, token, hm.subset mem_cons_self⟩
  obtain ⟨success, token, hm⟩ := hanswer
  cases h.stage a with
  | idle _ _ _ hn | asked _ _ hn => exact absurd hm (hn success token)
  | parked _ _ _ hw | waiting _ _ hw => exact absurd hg hw.notGranted
  | due j _ hl _ =>
    have hj := hl.jobs
    rw [hq] at hj
    cases hj
  | resolved hl _ => exact count_pos_iff.mp (by rw [hl.resolved]; exact Nat.one_pos)

/-- From the opened channel on, over every order of acquisitions and other calls, messages
    and microtasks: an acquisition resolves at most once and only with its grant; the
    microtasks come to an end, and whenever they have, every granted acquisition has
    resolved. -/
theorem lock_wakeups {refed : Bool} {credentials : P.Msg} {resp : Option P.Msg} {c : Channel P} {t : Worker P}
    {evs : List (WorkerEv P)} (h0 : run (channelStep P) { refed := refed } (openEvents P credentials resp) = some c)
    (hr : run (workerStep P R hops) { channel := c } evs = some t)
    (ha : Along (workerStep P R hops) (Assumed P R) { channel := c } evs) :
    t.js.resolved.Nodup ∧ (∀ a ∈ t.js.resolved, Granted t.arrivals a) ∧
      (t.js.queue = [] → ∀ a, Granted t.arrivals a → a ∈ t.js.resolved) ∧
      ∃ n u, run (workerStep P R hops) t (List.replicate n .microtask) = some u ∧ u.js.queue = [] ∧
        u.js.resolved.Nodup ∧ ∀ a, a ∈ u.js.resolved ↔ Granted t.arrivals a := by
  have h : Acquisitions P t :=
    run_inv (fun _ _ _ h ha hs => workerStep_inv P R hops h ha hs) (opened_acquisitions P (opened P h0)) ha hr
  refine ⟨nodup_iff_count_le_one.mpr (resolved_once P h), fun a ha => resolved_granted P h ha,
    fun hq a hg => granted_resolved P h hq hg, ?_⟩
  obtain ⟨n, u, hu, hq, harr⟩ := drain P R hops t
  have hinv : Acquisitions P u :=
    run_inv (fun _ _ _ h ha hs => workerStep_inv P R hops h ha hs) h (along_replicate (fun _ => trivial) n t) hu
  refine ⟨n, u, hu, hq, nodup_iff_count_le_one.mpr (resolved_once P hinv), fun a => ?_⟩
  rw [← harr]
  exact ⟨fun ha => resolved_granted P hinv ha, fun hg => granted_resolved P hinv hq hg⟩

instance (s : Worker P) : DecidablePred (Assumed P R s)
  | .response id .ok (some m) =>
    inferInstanceAs (Decidable (id ∈ s.asked → R.token m ∉ s.arrivals.filterMap Arrival.answerToken))
  | .expire t => inferInstanceAs (Decidable (∀ id ∈ s.channel.delegate.armed[t]?, id ∉ s.asked))
  | .response _ .ok none | .response _ .internalError _ | .response _ .timeout _ | .response _ .notImplemented _
  | .response _ .connectionReset _ | .response _ .clientError _ | .response _ .cancelled _ | .response _ (.other _ _) _
  | .acquire _ | .call _ _ | .returned | .notification _ _ | .other _ | .microtask => isTrue trivial

def plainFields : ResourceFields .plain where
  successOrAcquired m := m.2.head? == some 1
  token m := String.ofList (m.2.map fun b => Char.ofNat b.toNat)

/-- The agent grants the first of two acquisitions, lets the second wait for the token
    "b", and notifies it twice. -/
def twoLocks : List (WorkerEv .plain) :=
  [.acquire (.request .resourcePut, []), .acquire (.request .resourcePut, []),
    .response 1 .ok (some (.response .resourcePut, [1])), .microtask, .microtask, .microtask, .microtask, .returned,
    .response 2 .ok (some (.response .resourcePut, [98])), .microtask, .microtask, .microtask, .microtask, .returned,
    .notification 9 "b", .microtask, .notification 10 "b"]

theorem lock_wakeups_two : ∃ t, run (workerStep .plain plainFields 3) { channel := plainOpened false } twoLocks = some t ∧
    t.js.resolved = [0, 1] ∧ ∀ a, Granted t.arrivals a → a ∈ t.js.resolved := by
  obtain ⟨t, ht⟩ : ∃ t, run (workerStep .plain plainFields 3) { channel := plainOpened false } twoLocks = some t := ⟨_, rfl⟩
  have hres : (run (workerStep .plain plainFields 3) { channel := plainOpened false } twoLocks).map
      (fun t => (t.js.resolved, t.js.queue.length)) = some ([0, 1], 0) := rfl
  rw [ht] at hres
  have hpair := Prod.mk.inj (Option.some.inj hres)
  have hall := lock_wakeups .plain plainFields 3 (plainOpened_run false) ht (by decide)
  exact ⟨t, ht, hpair.1, hall.2.2.1 (length_eq_zero_iff.mp hpair.2)⟩

end Aworker.AgentChannel
