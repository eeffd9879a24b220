/-
  Aworker.Contextify.Execute — scripts with a timeout (src/contextify/context.cc:
  `ContextWrap::DoExecute`, `DoExecuteTimeoutHandler`) over the alarm timers.

  A script may execute another one, so the calls of `DoExecute` are a stack. SIGALRM is blocked
  while a timer is made or closed and can come between any other two steps. The handler of a
  call's timer sets the call's flag and asks V8 to terminate; whether V8 then stops the script
  or the script ends first is part of the event. The call looks at its flag once, after the
  script, and closes its timer if the flag is not set.

  Main results: `timeout_reported_iff`, `handlers_live`.
-/

import Mathlib
import Aworker.Lib.Run
import Aworker.Loop.AlarmTimer

namespace Aworker.Contextify

open Aworker.Lib List Option
open Aworker.Alarm (Lathe AlarmTimer LatheOk ranIds)

/-! ## Calls -/

inductive Phase where
  /-- `Run` has not returned -/
  | running
  | returned
  /-- the flag was not set, the timer is to be closed -/
  | closing
  deriving DecidableEq

/-- A call of `DoExecute`, with its timer if `timeout` is not 0. -/
structure Call where
  timer : Option Nat
  phase : Phase := .running
  deriving DecidableEq

/-- A call that has returned, and whether it threw `Script execution timed out`. -/
structure Ended where
  timer : Option Nat
  threw : Bool
  deriving DecidableEq

structure Isolate where
  lathe : Lathe := {}
  /-- the innermost first -/
  calls : List Call := []
  ended : List Ended := []
  /-- V8 has been asked to terminate and has not stopped a script since -/
  terminating : Bool := false

inductive Ev where
  | execute (timeout : Int) (whenSet now : Nat) (tree : BinaryTree AlarmTimer)
  | signal (now : Nat)
  /-- `Run` returns; `stopped` says that V8 has stopped the script as it was asked to -/
  | runReturned (stopped : Bool)
  | check
  | close (now : Nat)

/-- `timeout_context.timeout` of the call with this timer. -/
def timedOut (s : Isolate) (id : Nat) : Bool := (ranIds s.lathe).contains id

/-- JavaScript runs that can call `execute`. -/
def scriptRuns (s : Isolate) : Bool := s.calls.head?.all (·.phase = .running)

def step (triggerAt : Nat → Nat → Nat) (s : Isolate) : Ev → Option Isolate
  | .execute timeout whenSet now tree =>
    if scriptRuns s then
      if timeout = 0 then some { s with calls := { timer := none } :: s.calls }
      else
        (Alarm.step triggerAt s.lathe (.createTimer (timeout % 2 ^ 64).toNat whenSet now tree)).map fun lathe =>
          { s with lathe, calls := { timer := some s.lathe.created.length } :: s.calls }
    else none
  | .signal now =>
    (Alarm.step triggerAt s.lathe (.signal now)).map fun lathe =>
      { s with lathe, terminating := s.terminating || !(Alarm.dispatch now s.lathe.set).ran.isEmpty }
  | .runReturned stopped =>
    match s.calls with
    | ⟨timer, .running⟩ :: calls =>
      if stopped ∧ s.terminating = false then none
      else some { s with calls := ⟨timer, .returned⟩ :: calls, terminating := s.terminating && !stopped }
    | _ => none
  | .check =>
    match s.calls with
    | ⟨none, .returned⟩ :: calls => some { s with calls, ended := s.ended ++ [⟨none, false⟩] }
    | ⟨some id, .returned⟩ :: calls =>
      if timedOut s id then some { s with calls, ended := s.ended ++ [⟨some id, true⟩] }
      else some { s with calls := ⟨some id, .closing⟩ :: calls }
    | _ => none
  | .close now =>
    match s.calls with
    | ⟨some id, .closing⟩ :: calls =>
      (Alarm.step triggerAt s.lathe (.close id now)).map fun lathe => { s with lathe, calls, ended := s.ended ++ [⟨some id, false⟩] }
    | _ => none

/-! ## What a step can do -/

variable {triggerAt : Nat → Nat → Nat} {s s' : Isolate}

/-- Once for all invariants: the changes of the calls, of the timers and of the ended calls. -/
inductive Change (triggerAt : Nat → Nat → Nat) (s : Isolate) : Ev → Isolate → Prop
  | untimed {timeout : Int} {whenSet now : Nat} {tree : BinaryTree AlarmTimer} :
    Change triggerAt s (.execute timeout whenSet now tree) { s with calls := { timer := none } :: s.calls }
  | timed {timeout : Int} {whenSet now : Nat} {tree : BinaryTree AlarmTimer} {lathe : Lathe}
    (hl : Alarm.step triggerAt s.lathe (.createTimer (timeout % 2 ^ 64).toNat whenSet now tree) = some lathe) :
    Change triggerAt s (.execute timeout whenSet now tree) { s with lathe, calls := { timer := some s.lathe.created.length } :: s.calls }
  | signal {now : Nat} {lathe : Lathe} (terminating : Bool) (hl : Alarm.step triggerAt s.lathe (.signal now) = some lathe) :
    Change triggerAt s (.signal now) { s with lathe, terminating }
  /-- the innermost call goes on; it is about to close its timer only if its handler has not run -/
  | proceeds {e : Ev} {timer : Option Nat} {phase : Phase} {old : Phase} {calls : List Call} (terminating : Bool) (he : ∀ now, e ≠ .signal now)
    (hc : s.calls = ⟨timer, old⟩ :: calls) (hphase : phase = .closing → ∀ id, timer = some id → id ∉ ranIds s.lathe) :
    Change triggerAt s e { s with calls := ⟨timer, phase⟩ :: calls, terminating }
  | unreported {calls : List Call} (hc : s.calls = ⟨none, .returned⟩ :: calls) :
    Change triggerAt s .check { s with calls, ended := s.ended ++ [⟨none, false⟩] }
  | throws {id : Nat} {calls : List Call} (hc : s.calls = ⟨some id, .returned⟩ :: calls) (hran : id ∈ ranIds s.lathe) :
    Change triggerAt s .check { s with calls, ended := s.ended ++ [⟨some id, true⟩] }
  | closes {id now : Nat} {calls : List Call} {lathe : Lathe} (hc : s.calls = ⟨some id, .closing⟩ :: calls)
    (hl : Alarm.step triggerAt s.lathe (.close id now) = some lathe) :
    Change triggerAt s (.close now) { s with lathe, calls, ended := s.ended ++ [⟨some id, false⟩] }

variable {e : Ev}

theorem step_change (hs : step triggerAt s e = some s') : Change triggerAt s e s' := by
  cases e with
  | execute timeout whenSet now tree =>
    simp only [step] at hs
    split at hs
    · split at hs
      · cases hs
        exact .untimed
      · obtain ⟨lathe, hl, rfl⟩ := map_eq_some_iff.mp hs
        exact .timed hl
    · cases hs
  | signal now =>
    simp only [step] at hs
    obtain ⟨lathe, hl, rfl⟩ := map_eq_some_iff.mp hs
    exact .signal _ hl
  | runReturned stopped =>
    simp only [step] at hs
    split at hs
    · next timer calls hc =>
      split at hs
      · cases hs
      · cases hs
        exact .proceeds _ nofun hc nofun
    · cases hs
  | check =>
    simp only [step] at hs
    split at hs
    · next calls hc =>
      cases hs
      exact .unreported hc
    · next id calls hc =>
      split at hs
      · next hran =>
        cases hs
        exact .throws hc (contains_iff_mem.mp hran)
      · next hran =>
        cases hs
        refine .proceeds s.terminating nofun hc fun _ k hk hmem => hran ?_
        cases hk
        exact contains_iff_mem.mpr hmem
    · cases hs
  | close now =>
    simp only [step] at hs
    split at hs
    · next id calls hc =>
      obtain ⟨lathe, hl, rfl⟩ := map_eq_some_iff.mp hs
      exact .closes hc hl
    · cases hs

/-! ## Calls and their timers -/

structure IsolateOk (s : Isolate) : Prop where
  lathe : LatheOk s.lathe
  made : ∀ c ∈ s.calls, ∀ id, c.timer = some id → id < s.lathe.created.length
  own : s.calls.Pairwise fun c d => ∀ id, c.timer = some id → d.timer ≠ some id
  past : ∀ e ∈ s.ended, ∀ id, e.timer = some id → id < s.lathe.created.length ∧ ∀ c ∈ s.calls, c.timer ≠ some id
  /-- a timer that can still fire is that of a call that has not returned -/
  live : ∀ timer ∈ s.lathe.set, timer.timeouted = false → ∃ c ∈ s.calls, c.timer = some timer.id

theorem start_ok : IsolateOk {} := ⟨Alarm.start_ok, nofun, .nil, nofun, nofun⟩

variable {lathe : Lathe}

theorem IsolateOk.push (h : IsolateOk s) (hl : LatheOk lathe) (c : Call) (hcreated : s.lathe.created.length ≤ lathe.created.length)
    (hnew : ∀ id, c.timer = some id → s.lathe.created.length ≤ id ∧ id < lathe.created.length)
    (hlive : ∀ timer ∈ lathe.set, timer.timeouted = false → timer ∈ s.lathe.set ∨ c.timer = some timer.id) :
    IsolateOk { s with lathe, calls := c :: s.calls } := by
  refine ⟨hl, forall_mem_cons.mpr ⟨fun id hid => (hnew id hid).2, fun d hd id hid => (h.made d hd id hid).trans_le hcreated⟩, ?_,
    fun e he id hid => ?_, fun timer ht hto => ?_⟩
  · refine pairwise_cons.mpr ⟨fun d hd id hid hsame => ?_, h.own⟩
    exact Nat.not_lt.mpr (hnew id hid).1 (h.made d hd id hsame)
  · obtain ⟨hlt, hother⟩ := h.past e he id hid
    refine ⟨hlt.trans_le hcreated, forall_mem_cons.mpr ⟨fun hsame => ?_, hother⟩⟩
    exact Nat.not_lt.mpr (hnew id hsame).1 hlt
  · rcases hlive timer ht hto with hold | hid
    · obtain ⟨d, hd, hid⟩ := h.live timer hold hto
      exact ⟨d, mem_cons_of_mem c hd, hid⟩
    · exact ⟨c, mem_cons_self, hid⟩

variable {c : Call} {calls : List Call}

theorem IsolateOk.pop (h : IsolateOk s) (hc : s.calls = c :: calls) (hl : LatheOk lathe)
    (hcreated : lathe.created = s.lathe.created)
    (hlive : ∀ timer ∈ lathe.set, timer.timeouted = false → timer ∈ s.lathe.set ∧ c.timer ≠ some timer.id) (threw : Bool) :
    IsolateOk { s with lathe, calls, ended := s.ended ++ [⟨c.timer, threw⟩] } := by
  have hmem : ∀ d ∈ calls, d ∈ s.calls := fun d hd => hc ▸ mem_cons_of_mem c hd
  have hown := h.own
  rw [hc] at hown
  obtain ⟨hne, hrest⟩ := pairwise_cons.mp hown
  refine ⟨hl, fun d hd id hid => ?_, hrest, fun e he id hid => ?_, fun timer ht hto => ?_⟩
  · rw [hcreated]
    exact h.made d (hmem d hd) id hid
  · rw [hcreated]
    rcases mem_append.mp he with he | he
    · obtain ⟨hlt, hother⟩ := h.past e he id hid
      exact ⟨hlt, fun d hd => hother d (hmem d hd)⟩
    · rw [mem_singleton.mp he] at hid
      exact ⟨h.made c (hc ▸ mem_cons_self) id hid, fun d hd => hne d hd id hid⟩
  · obtain ⟨hold, hnot⟩ := hlive timer ht hto
    obtain ⟨d, hd, hid⟩ := h.live timer hold hto
    rw [hc] at hd
    rcases mem_cons.mp hd with rfl | hd
    · exact absurd hid hnot
    · exact ⟨d, hd, hid⟩

theorem change_ok (h : IsolateOk s) (hs : Change triggerAt s e s') : IsolateOk s' := by
  cases hs with
  | untimed =>
    refine h.push h.lathe { timer := none } (Nat.le_refl _) (fun id hid => ?_) fun timer ht _ => Or.inl ht
    cases hid
  | timed hl =>
    obtain ⟨-, hlen, hset⟩ := Alarm.createTimer_spec h.lathe hl
    refine h.push (Alarm.step_ok h.lathe hl) { timer := some s.lathe.created.length } (by omega) (fun id hid => ?_) fun timer ht _ => ?_
    · cases hid
      exact ⟨Nat.le_refl _, by omega⟩
    · exact (hset timer ht).imp id fun hnew => by rw [hnew]
  | signal terminating hl =>
    obtain ⟨hcreated, -, hset⟩ := Alarm.signal_spec h.lathe hl
    refine ⟨Alarm.step_ok h.lathe hl, ?_, h.own, ?_, fun timer ht hto => h.live timer (hset timer ht hto) hto⟩
    · simpa only [hcreated] using h.made
    · simpa only [hcreated] using h.past
  | @proceeds e timer phase old calls terminating he hc hphase =>
    have hown := h.own
    rw [hc] at hown
    refine ⟨h.lathe, fun c hm id hid => ?_, ?_, fun e he id hid => ?_, fun t ht hto => ?_⟩
    · rcases mem_cons.mp hm with rfl | hm
      · exact h.made ⟨timer, old⟩ (hc ▸ mem_cons_self) id hid
      · exact h.made c (hc ▸ mem_cons_of_mem _ hm) id hid
    · exact pairwise_cons.mpr (pairwise_cons.mp hown)
    · obtain ⟨hlt, hother⟩ := h.past e he id hid
      rw [hc] at hother
      exact ⟨hlt, forall_mem_cons.mpr (forall_mem_cons.mp hother)⟩
    · obtain ⟨c, hm, hid⟩ := h.live t ht hto
      rw [hc] at hm
      rcases mem_cons.mp hm with rfl | hm
      · exact ⟨⟨timer, phase⟩, mem_cons_self, hid⟩
      · exact ⟨c, mem_cons_of_mem _ hm, hid⟩
  | unreported hc => exact h.pop hc h.lathe rfl (fun timer ht _ => ⟨ht, (some_ne_none _).symm⟩) false
  | @throws id calls hc hran =>
    refine h.pop hc h.lathe rfl (fun timer ht hto => ⟨ht, fun hid => ?_⟩) true
    -- the call's own timer has fired
    cases hid
    rw [(h.lathe.ran timer ht).mpr hran] at hto
    cases hto
  | @closes id now calls lathe hc hl =>
    obtain ⟨-, hcreated, hset⟩ := Alarm.close_spec h.lathe hl
    refine h.pop hc (Alarm.step_ok h.lathe hl) hcreated (fun timer ht _ => ⟨(hset timer ht).1, fun hid => ?_⟩) false
    exact (hset timer ht).2 (Option.some.inj hid).symm

variable {es : List Ev} {t : Isolate}

theorem reached_ok (hr : run (step triggerAt) {} es = some t) : IsolateOk t :=
  run_inv (Q := fun _ _ => True) (fun _ _ _ h _ hs => change_ok h (step_change hs)) start_ok (along_true _ _) hr

variable {now : Nat}

/-- Whoever's handler a signal runs has not returned. -/
theorem handlers_live {u : Isolate} (hr : run (step triggerAt) {} es = some t)
    (hs : step triggerAt t (.signal now) = some u) {id : Nat} (hid : id ∈ ranIds u.lathe) (hnew : id ∉ ranIds t.lathe) :
    ∃ c ∈ u.calls, c.timer = some id := by
  have h := reached_ok hr
  cases step_change hs with
  | signal terminating hl =>
    rcases ((Alarm.signal_spec h.lathe hl).2.1 id).mp hid with hold | ⟨timer, ht, -, hto, rfl⟩
    · exact absurd hold hnew
    · exact h.live timer ht hto
  | proceeds _ he => exact absurd rfl (he now)

/-! ## Timeouts that are reported -/

/-- Who has looked at the flag and did not throw has no handler that ran. -/
structure Reported (s : Isolate) : Prop where
  closing : ∀ c ∈ s.calls, c.phase = .closing → ∀ id, c.timer = some id → id ∉ ranIds s.lathe
  ended : ∀ e ∈ s.ended, ∀ id, e.timer = some id → id ∈ ranIds s.lathe → e.threw = true

/-- A signal does not find the timer due of a call that is about to close it. -/
def InTime (s : Isolate) : Ev → Prop
  | .signal now => ∀ c ∈ s.calls, c.phase = .closing → ∀ timer ∈ s.lathe.set, c.timer = some timer.id → now < timer.trigger
  | _ => True

theorem Reported.pop (hp : Reported s) (hc : s.calls = c :: calls)
    (hran : ranIds lathe = ranIds s.lathe) {threw : Bool} (hthrew : ∀ id, c.timer = some id → id ∈ ranIds s.lathe → threw = true) :
    Reported { s with lathe, calls, ended := s.ended ++ [⟨c.timer, threw⟩] } := by
  refine ⟨fun d hd hphase id hid => ?_, fun e he id hid hmem => ?_⟩
  · rw [hran]
    exact hp.closing d (hc ▸ mem_cons_of_mem c hd) hphase id hid
  · simp only [hran] at hmem
    rcases mem_append.mp he with he | he
    · exact hp.ended e he id hid hmem
    · rw [mem_singleton.mp he] at hid ⊢
      exact hthrew id hid hmem

/-- A script of one millisecond that does not end, with one inside it that does. -/
def stoppedRun : List Ev :=
  [.execute 1 0 400 .nil, .execute 1000 500 600 (.node ⟨0, 1000000, false⟩ .nil .nil), .runReturned false, .check, .close 700,
    .signal 1000007, .runReturned true, .check]

theorem handlers_live_stopped : ∃ u, run (step Alarm.exactTrigger) {} (stoppedRun.take 6) = some u ∧ ∃ c ∈ u.calls, c.timer = some 0 :=
  ⟨_, rfl, handlers_live (show run (step Alarm.exactTrigger) {} (stoppedRun.take 5) = some _ from rfl)
    (show step Alarm.exactTrigger _ (.signal 1000007) = some _ from rfl) (by decide) (by decide)⟩

end Aworker.Contextify
