/-
  Aworker.Loop.LatencyWatchdog — the watchdog for callbacks that take too long
  (src/loop_latency_watchdog.cc; src/async_wrap.cc: `MakeCallback`).

  The main thread marks the begin and the end of a callback with `idle_`, and wakes the
  watchdog's thread at the begin. That thread then starts its two timers anew. A timer that runs
  out while `idle_` is not set raises an alarm: a stack trace, or the end of the process. Each of
  these is one step under `idle_mutex_`. The wake-up takes its time, further ones before it are
  the same one, and a timer runs out at its due time or later.

  The end of a callback stops no timer, so the timer of one callback may run out in the next.

  (1) `alarms_due`: an alarm is raised only if the callback that runs began at least the limit
      ago, in every run in which no timer runs out while the wake-up for the callback that runs
      is still on its way (`Woken`). Not so in `alarm_for_next`.
-/

import Mathlib
import Aworker.Lib.Run

namespace Aworker.LatencyWatchdog

open Aworker.Lib Option

inductive Timer where
  | longTask
  | fatal
  deriving DecidableEq

structure Config where
  longTaskThresholdMs : Nat
  fatalLatencyLimitMs : Nat

def Config.limit (c : Config) : Timer → Nat
  | .longTask => c.longTaskThresholdMs
  | .fatal => c.fatalLatencyLimitMs

/-- `RequestInterrupt` by a timer's callback. -/
structure Alarm where
  timer : Timer
  /-- when the callback that runs at this time began -/
  began : Option Nat
  time : Nat

structure State where
  now : Nat := 0
  /-- no constructor sets it -/
  idle : Bool
  /-- when the callback that runs began -/
  began : Option Nat := none
  /-- `uv_async_send` was called, `AsyncCallback` was not -/
  sent : Bool := false
  due : Timer → Option Nat := fun _ => none
  alarms : List Alarm := []

inductive Ev where
  | elapse (ms : Nat)
  | callbackPrologue
  | callbackEpilogue
  | asyncCallback
  /-- `LongTaskTimerCallback` or `FatalTimerCallback` -/
  | timerCallback (t : Timer)
  | threadAtExit

/-- `uv_timer_start`, unless the limit is zero. -/
def State.startTimer (c : Config) (s : State) (t : Timer) : Option Nat :=
  if c.limit t = 0 then s.due t else some (s.now + c.limit t)

def step (c : Config) (s : State) : Ev → Option State
  | .elapse ms => some { s with now := s.now + ms }
  | .callbackPrologue =>
    -- callbacks are not nested
    if s.began.isNone then some { s with began := some s.now, idle := false, sent := true } else none
  | .callbackEpilogue => if s.began.isSome then some { s with began := none, idle := true } else none
  | .asyncCallback => if s.sent then some { s with sent := false, due := s.startTimer c } else none
  | .timerCallback t =>
    match s.due t with
    | none => none
    | some due =>
      if s.now < due then none
      else
        let s := { s with due := Function.update s.due t none }
        if s.idle then some s else some { s with alarms := s.alarms ++ [{ timer := t, began := s.began, time := s.now }] }
  | .threadAtExit => some { s with sent := false, due := fun _ => none }

def Alarm.Due (c : Config) (a : Alarm) : Prop := ∃ began, a.began = some began ∧ began + c.limit a.timer ≤ a.time

/-- A timer does not run out between a callback's begin and the wake-up for it. -/
def Woken (s : State) : Ev → Prop
  | .timerCallback _ => s.began.isSome → s.sent = false
  | _ => True

instance Woken.decidable (s : State) : ∀ e, Decidable (Woken s e)
  | .timerCallback _ => inferInstanceAs (Decidable (s.began.isSome → s.sent = false))
  | .elapse _ | .callbackPrologue | .callbackEpilogue | .asyncCallback | .threadAtExit => isTrue trivial

/-! ## Every alarm is due -/

structure Inv (c : Config) (s : State) : Prop where
  alarms : ∀ a ∈ s.alarms, a.Due c
  /-- as soon as a timer can run out, `idle_` tells whether a callback runs -/
  idle : (∀ t, s.due t = none) ∧ s.sent = false ∨ s.idle = s.began.isNone
  began : ∀ b, s.began = some b → b ≤ s.now
  off : ∀ t, c.limit t = 0 → s.due t = none
  /-- the timers of a callback that the watchdog was woken for -/
  due : ∀ b, s.began = some b → s.sent = false → ∀ t d, s.due t = some d → b + c.limit t ≤ d

variable {c : Config} {s s' : State}

theorem Inv.elapse (hi : Inv c s) (ms : Nat) : Inv c { s with now := s.now + ms } :=
  { hi with began := fun b hb => (hi.began b hb).trans (Nat.le_add_right _ _) }

theorem Inv.prologue (hi : Inv c s) : Inv c { s with began := some s.now, idle := false, sent := true } := by
  refine { hi with idle := Or.inr rfl, began := fun b hb => ?_, due := fun b _ hsent => ?_ }
  · exact (Option.some.inj hb).ge
  · cases hsent

theorem Inv.epilogue (hi : Inv c s) : Inv c { s with began := none, idle := true } := by
  refine { hi with idle := Or.inr rfl, began := fun b hb => ?_, due := fun b hb => ?_ }
  · cases hb
  · cases hb

theorem Inv.asyncCallback (hi : Inv c s) (hsent : s.sent = true) : Inv c { s with sent := false, due := s.startTimer c } := by
  have hidle : s.idle = s.began.isNone := by
    rcases hi.idle with ⟨-, hnot⟩ | hidle
    · rw [hsent] at hnot
      cases hnot
    · exact hidle
  refine { hi with idle := Or.inr hidle, off := fun t ht => ?_, due := fun b hb _ t d hd => ?_ }
  · show s.startTimer c t = none
    rw [State.startTimer, if_pos ht, hi.off t ht]
  · have hd : s.startTimer c t = some d := hd
    rw [State.startTimer] at hd
    split at hd
    · next ht =>
      rw [hi.off t ht] at hd
      cases hd
    · -- started now, and the callback began before
      obtain rfl := Option.some.inj hd
      exact Nat.add_le_add_right (hi.began b hb) _

theorem Inv.stopTimer (hi : Inv c s) (t : Timer) : Inv c { s with due := Function.update s.due t none } := by
  have hsub : ∀ u d, Function.update s.due t none u = some d → s.due u = some d := by
    intro u d hu
    by_cases hut : u = t
    · rw [hut, Function.update_self] at hu
      cases hu
    · rwa [Function.update_of_ne hut] at hu
  have hnone : ∀ u, s.due u = none → Function.update s.due t none u = none := by
    intro u hu
    rw [eq_none_iff_forall_ne_some] at hu ⊢
    intro d hd
    exact hu d (hsub u d hd)
  refine { hi with idle := ?_, off := fun u hu => hnone u (hi.off u hu), due := fun b hb hsent u d hd => hi.due b hb hsent u d (hsub u d hd) }
  rcases hi.idle with ⟨hdue, hsent⟩ | hidle
  · exact Or.inl ⟨fun u => hnone u (hdue u), hsent⟩
  · exact Or.inr hidle

theorem Inv.alarm (hi : Inv c s) {a : Alarm} (ha : a.Due c) : Inv c { s with alarms := s.alarms ++ [a] } := by
  refine { hi with alarms := fun x hx => ?_ }
  rcases List.mem_append.mp hx with hx | hx
  · exact hi.alarms x hx
  · rwa [List.mem_singleton.mp hx]

theorem step_inv {e : Ev} (hi : Inv c s) (hw : Woken s e) (hs : step c s e = some s') : Inv c s' := by
  cases e with
  | elapse ms =>
    obtain rfl := Option.some.inj hs
    exact hi.elapse ms
  | callbackPrologue =>
    obtain ⟨-, hs⟩ := ite_none_right_eq_some.mp hs
    obtain rfl := Option.some.inj hs
    exact hi.prologue
  | callbackEpilogue =>
    obtain ⟨-, hs⟩ := ite_none_right_eq_some.mp hs
    obtain rfl := Option.some.inj hs
    exact hi.epilogue
  | asyncCallback =>
    obtain ⟨hsent, hs⟩ := ite_none_right_eq_some.mp hs
    obtain rfl := Option.some.inj hs
    exact hi.asyncCallback hsent
  | threadAtExit =>
    obtain rfl := Option.some.inj hs
    exact { hi with idle := Or.inl ⟨fun _ => rfl, rfl⟩, off := fun _ _ => rfl, due := by simp }
  | timerCallback t =>
    simp only [step] at hs
    split at hs
    · cases hs
    · next d hd =>
      obtain ⟨hlt, hs⟩ := ite_none_left_eq_some.mp hs
      split at hs
      · obtain rfl := Option.some.inj hs
        exact hi.stopTimer t
      · next hidle =>
        obtain rfl := Option.some.inj hs
        have hrun : s.idle = s.began.isNone := hi.idle.resolve_left fun h => by
          rw [h.1 t] at hd
          cases hd
        rw [Bool.not_eq_true, hrun, isNone_eq_false_iff] at hidle
        obtain ⟨b, hb⟩ := isSome_iff_exists.mp hidle
        have hle := hi.due b hb (hw hidle) t d hd
        exact (hi.stopTimer t).alarm ⟨b, hb, hle.trans (Nat.le_of_not_lt hlt)⟩

theorem alarms_due {idle : Bool} {es : List Ev} {t : State} (hw : Along (step c) Woken { idle } es)
    (hr : run (step c) { idle } es = some t) : ∀ a ∈ t.alarms, a.Due c := by
  have h0 : Inv c { idle } := ⟨by simp, Or.inl ⟨fun _ => rfl, rfl⟩, by simp, fun _ _ => rfl, by simp⟩
  exact (run_inv (fun _ _ _ hi hq hs => step_inv hi hq hs) h0 hw hr).alarms

def secondTooLong : List Ev :=
  [.callbackPrologue, .asyncCallback, .elapse 3, .callbackEpilogue, .elapse 5, .callbackPrologue, .elapse 1, .asyncCallback,
    .elapse 10, .timerCallback .fatal, .callbackEpilogue]

theorem secondTooLong_due :
    ∃ t, run (step ⟨0, 10⟩) { idle := true } secondTooLong = some t ∧ t.alarms.length = 1 ∧ ∀ a ∈ t.alarms, a.Due ⟨0, 10⟩ := by
  obtain ⟨t, hr, hlen⟩ : ∃ t, run (step ⟨0, 10⟩) { idle := true } secondTooLong = some t ∧ t.alarms.length = 1 := ⟨_, rfl, rfl⟩
  have hw : Along (step ⟨0, 10⟩) Woken { idle := true } secondTooLong := by decide
  exact ⟨t, hr, hlen, alarms_due hw hr⟩

/-- The timer of a short callback runs out when the next one has just begun. -/
theorem alarm_for_next :
    ∃ t, run (step ⟨0, 10⟩) { idle := true }
        [.callbackPrologue, .asyncCallback, .elapse 1, .callbackEpilogue, .elapse 8, .callbackPrologue, .elapse 1, .timerCallback .fatal] =
        some t ∧
      t.alarms = [{ timer := .fatal, began := some 9, time := 10 }] :=
  ⟨_, rfl, rfl⟩

end Aworker.LatencyWatchdog
