/-
  Aworker.ServiceWorker.Lifetime — how long an ExtendableEvent lives
  (lib/service_worker/event.js; lib/service_worker/index.js; `doDispatchEvent` in
  lib/dom/event_target.js).

  `waitUntil` takes a promise, counts it as pending and leaves a reaction on it; the reaction
  counts down and, at zero, resolves the event's deferred, or rejects it if the promise was
  rejected. `getExtendableEventExtendedLifetimePromise` hands that deferred's promise out, and
  resolves it at once if no promise was ever taken. Listeners, timers and reactions of other
  promises may call `waitUntil` at any time between these, and promises are settled by anybody:
  both are events here. The reactions of `waitUntil` are jobs of the microtask queue and run in
  the order in which they got there. `Promise.resolve` of a plain value is a promise that is
  fulfilled already.

  `timedOutFlag` is read by `#active` and set by nobody, so the event is active forever
  (`accepts_iff`) and takes promises when its lifetime promise is fulfilled.

  (1) `lifetime_iff`: the lifetime promise is at no time fulfilled while a promise that was taken
      is pending, exactly if no pending promise is passed to a `waitUntil` that takes it once
      the lifetime promise is fulfilled. `extended_after_end` is a run where one is.
-/

import Mathlib
import Aworker.Lib.Run

namespace Aworker.Lifetime

open Aworker.Lib List Option

/-! ## The event -/

/-- How a promise was settled; `E` are the reasons of rejections. -/
inductive Outcome (E : Type) where
  | fulfilled
  | rejected (err : E)
  deriving DecidableEq

structure ExtendableEvent (P E : Type) where
  isTrusted : Bool := false
  dispatchFlag : Bool := false
  /-- `undefined` from the constructor on -/
  timedOutFlag : Option Bool := none
  extendLifetimePromises : List P := []
  pendingPromisesCount : Int := 0
  /-- `none` while it is pending -/
  extendLifetimeDeferred : Option (Outcome E) := none

/-- An event, the promises of the program, and what waits for them. -/
structure State (P E : Type) where
  event : ExtendableEvent P E := {}
  promise : P → Option (Outcome E) := fun _ => none
  /-- the promises with a reaction of `waitUntil`, once for each -/
  reactions : List P := []
  /-- reactions of `waitUntil` in the microtask queue -/
  jobs : List (Outcome E) := []

inductive Ev (P E : Type) where
  /-- `doDispatchEvent`, for `trustedDispatchEvent` or a `dispatchEvent` of the program -/
  | dispatch (isTrusted : Bool)
  | dispatched
  | waitUntil (future : P)
  | settle (p : P) (o : Outcome E)
  /-- the next reaction of `waitUntil` runs -/
  | react
  | getExtendedLifetimePromise

variable {P E : Type}

def ExtendableEvent.active (e : ExtendableEvent P E) : Bool :=
  e.timedOutFlag.isNone || e.pendingPromisesCount > 0 || e.dispatchFlag

/-- A `waitUntil` call now does not reject. -/
def ExtendableEvent.accepts (e : ExtendableEvent P E) : Bool := e.isTrusted && e.active

/-- `resolve` and `reject` of a deferred: the first call counts. -/
def ExtendableEvent.settleDeferred (e : ExtendableEvent P E) (o : Outcome E) : ExtendableEvent P E :=
  { e with extendLifetimeDeferred := e.extendLifetimeDeferred.or (some o) }

/-- The two callbacks of `future.then`. -/
def ExtendableEvent.onSettled (e : ExtendableEvent P E) (o : Outcome E) : ExtendableEvent P E :=
  let e := { e with pendingPromisesCount := e.pendingPromisesCount - 1 }
  match o with
  | .fulfilled => if e.pendingPromisesCount = 0 then e.settleDeferred .fulfilled else e
  | .rejected err => e.settleDeferred (.rejected err)

def ExtendableEvent.getExtendedLifetimePromise (e : ExtendableEvent P E) : ExtendableEvent P E :=
  if e.extendLifetimePromises.length = 0 then e.settleDeferred .fulfilled else e

/-- `then`: a reaction on a pending promise waits, one on a settled promise is a job at once. -/
def State.then (s : State P E) (p : P) : State P E :=
  match s.promise p with
  | none => { s with reactions := s.reactions ++ [p] }
  | some o => { s with jobs := s.jobs ++ [o] }

/-- A call of `waitUntil` that rejects changes nothing. -/
def State.waitUntil (s : State P E) (future : P) : State P E :=
  if s.event.accepts then
    State.then { s with event := { s.event with
      extendLifetimePromises := s.event.extendLifetimePromises ++ [future]
      pendingPromisesCount := s.event.pendingPromisesCount + 1 } } future
  else s

def step [DecidableEq P] (s : State P E) : Ev P E → Option (State P E)
  | .dispatch isTrusted =>
    -- `doDispatchEvent` throws for an event that is being dispatched
    if s.event.dispatchFlag then none else some { s with event := { s.event with isTrusted, dispatchFlag := true } }
  | .dispatched => if s.event.dispatchFlag then some { s with event := { s.event with dispatchFlag := false } } else none
  | .waitUntil future => some (s.waitUntil future)
  | .settle p o =>
    match s.promise p with
    | none =>
      some { s with
        promise := Function.update s.promise p (some o)
        reactions := s.reactions.filter (· ≠ p)
        jobs := s.jobs ++ (s.reactions.filter (· = p)).map fun _ => o }
    | some _ => none
  | .react =>
    match s.jobs with
    | o :: jobs => some { s with event := s.event.onSettled o, jobs }
    | [] => none
  | .getExtendedLifetimePromise => some { s with event := s.event.getExtendedLifetimePromise }

/-! ## What settles the lifetime promise -/

variable {o : Outcome E}

theorem or_some_fulfilled {d : Option (Outcome E)} (h : d.or (some o) = some .fulfilled) :
    d = some .fulfilled ∨ o = .fulfilled := by
  cases d with
  | none => exact Or.inr (Option.some.inj h)
  | some o' => exact Or.inl h

/-- A reaction counts down, and fulfils the lifetime promise only as the last one. -/
theorem onSettled_spec (e : ExtendableEvent P E) (o : Outcome E) : ∃ d,
    e.onSettled o = { e with pendingPromisesCount := e.pendingPromisesCount - 1, extendLifetimeDeferred := d } ∧
      (d = some .fulfilled → e.extendLifetimeDeferred = some .fulfilled ∨ e.pendingPromisesCount - 1 = 0) := by
  cases o with
  | fulfilled =>
    simp only [ExtendableEvent.onSettled]
    split_ifs with hzero
    · exact ⟨_, rfl, fun _ => Or.inr hzero⟩
    · exact ⟨_, rfl, Or.inl⟩
  | rejected err =>
    refine ⟨_, rfl, fun h => ?_⟩
    rcases or_some_fulfilled h with h | h
    · exact Or.inl h
    · cases h

/-- To ask for the lifetime promise fulfils it only if no promise was taken. -/
theorem getExtendedLifetimePromise_spec (e : ExtendableEvent P E) : ∃ d,
    e.getExtendedLifetimePromise = { e with extendLifetimeDeferred := d } ∧
      (d = some .fulfilled → e.extendLifetimeDeferred = some .fulfilled ∨ e.extendLifetimePromises = []) := by
  unfold ExtendableEvent.getExtendedLifetimePromise
  split_ifs with hlen
  · exact ⟨_, rfl, fun _ => Or.inr (eq_nil_of_length_eq_zero hlen)⟩
  · exact ⟨_, rfl, Or.inl⟩

/-! ## The counter -/

structure Inv (s : State P E) : Prop where
  timedOutFlag : s.event.timedOutFlag = none
  /-- `pendingPromisesCount` is the number of reactions that have not run -/
  count : s.event.pendingPromisesCount = s.reactions.length + s.jobs.length
  /-- a promise that was taken and is pending has its reaction -/
  waiting : ∀ p ∈ s.event.extendLifetimePromises, s.promise p = none → p ∈ s.reactions

/-- The lifetime promise is not fulfilled while a promise that was taken is pending. -/
def Ok (s : State P E) : Prop :=
  s.event.extendLifetimeDeferred = some .fulfilled → ∀ p ∈ s.event.extendLifetimePromises, s.promise p ≠ none

/-- The lifetime is not over when a pending promise is taken. -/
def InTime (s : State P E) : Ev P E → Prop
  | .waitUntil future => s.event.accepts = true → s.promise future = none → s.event.extendLifetimeDeferred ≠ some .fulfilled
  | _ => True

instance InTime.decidable [DecidableEq E] (s : State P E) : ∀ e, Decidable (InTime s e)
  | .waitUntil future => inferInstanceAs
    (Decidable (s.event.accepts = true → s.promise future = none → s.event.extendLifetimeDeferred ≠ some .fulfilled))
  | .dispatch _ | .dispatched | .settle _ _ | .react | .getExtendedLifetimePromise => inferInstanceAs (Decidable True)

variable {s s' : State P E}

theorem Inv.settled (h : Inv s) (hzero : s.event.pendingPromisesCount = 0) :
    ∀ p ∈ s.event.extendLifetimePromises, s.promise p ≠ none := by
  intro p hp hnone
  have hlen : s.reactions.length = 0 := by
    have := h.count
    omega
  have hmem := h.waiting p hp hnone
  rw [eq_nil_of_length_eq_zero hlen] at hmem
  cases hmem

@[simp]
theorem then_event (s : State P E) (p : P) : (s.then p).event = s.event := by
  unfold State.then
  split <;> rfl

@[simp]
theorem then_promise (s : State P E) (p : P) : (s.then p).promise = s.promise := by
  unfold State.then
  split <;> rfl

theorem then_length (s : State P E) (p : P) :
    (s.then p).reactions.length + (s.then p).jobs.length = s.reactions.length + s.jobs.length + 1 := by
  unfold State.then
  split
  · simp only [length_append, length_singleton]
    omega
  · simp only [length_append, length_singleton]
    omega

theorem mem_then_reactions (s : State P E) (p q : P) :
    q ∈ (s.then p).reactions ↔ q ∈ s.reactions ∨ q = p ∧ s.promise p = none := by
  unfold State.then
  split <;> simp [*]

theorem start_inv : Inv ({} : State P E) where
  timedOutFlag := rfl
  count := rfl
  waiting _ hp := absurd hp not_mem_nil

theorem waitUntil_inv (h : Inv s) (future : P) : Inv (s.waitUntil future) := by
  unfold State.waitUntil
  split_ifs
  · refine ⟨by simpa using h.timedOutFlag, ?_, ?_⟩
    · have hlen := then_length { s with event := { s.event with
        extendLifetimePromises := s.event.extendLifetimePromises ++ [future]
        pendingPromisesCount := s.event.pendingPromisesCount + 1 } } future
      have hcount := h.count
      simp only [then_event] at hlen ⊢
      omega
    · intro p hp hnone
      rw [then_event, mem_append, mem_singleton] at hp
      rw [then_promise] at hnone
      rw [mem_then_reactions]
      rcases hp with hp | rfl
      · exact Or.inl (h.waiting p hp hnone)
      · exact Or.inr ⟨rfl, hnone⟩
  · exact h

theorem settle_inv [DecidableEq P] (h : Inv s) (p : P) (o : Outcome E) :
    Inv { s with
      promise := Function.update s.promise p (some o)
      reactions := s.reactions.filter (· ≠ p)
      jobs := s.jobs ++ (s.reactions.filter (· = p)).map fun _ => o } where
  timedOutFlag := h.timedOutFlag
  count := by
    have hsplit := length_eq_length_filter_add (l := s.reactions) (· = p)
    have hcount := h.count
    simp only [length_append, length_map, ne_eq, decide_not] at hsplit ⊢
    omega
  waiting q hq hnone := by
    have hnone : Function.update s.promise p (some o) q = none := hnone
    have hne : q ≠ p := by
      rintro rfl
      simp at hnone
    rw [Function.update_of_ne hne] at hnone
    exact mem_filter.mpr ⟨h.waiting q hq hnone, by simpa using hne⟩

variable {jobs : List (Outcome E)}

theorem react_inv (h : Inv s) (hjobs : s.jobs = o :: jobs) : Inv { s with event := s.event.onSettled o, jobs } := by
  obtain ⟨d, hd, -⟩ := onSettled_spec s.event o
  have hcount := h.count
  rw [hjobs, length_cons] at hcount
  rw [hd]
  refine ⟨h.timedOutFlag, ?_, h.waiting⟩
  simp only
  omega

theorem getExtendedLifetimePromise_inv (h : Inv s) : Inv { s with event := s.event.getExtendedLifetimePromise } := by
  obtain ⟨d, hd, -⟩ := getExtendedLifetimePromise_spec s.event
  rw [hd]
  exact ⟨h.timedOutFlag, h.count, h.waiting⟩

theorem waitUntil_ok_iff (hok : Ok s) (future : P) : Ok (s.waitUntil future) ↔ InTime s (.waitUntil future) := by
  unfold State.waitUntil InTime
  split_ifs with hacc
  · simp only [Ok, then_event, then_promise, mem_append, mem_singleton, hacc, true_implies]
    constructor
    · intro hall hnone hful
      exact hall hful future (Or.inr rfl) hnone
    · intro hin hful p hp
      rcases hp with hp | rfl
      · exact hok hful p hp
      · exact fun hnone => hin hnone hful
  · exact iff_of_true hok fun h => absurd h hacc

theorem react_ok (h : Inv s) (hok : Ok s) (hjobs : s.jobs = o :: jobs) :
    Ok { s with event := s.event.onSettled o, jobs } := by
  have h' := react_inv h hjobs
  obtain ⟨d, hd, hful⟩ := onSettled_spec s.event o
  rw [hd] at h' ⊢
  intro hd
  rcases hful hd with hd | hzero
  · exact hok hd
  · exact h'.settled hzero

theorem getExtendedLifetimePromise_ok (hok : Ok s) : Ok { s with event := s.event.getExtendedLifetimePromise } := by
  obtain ⟨d, hd, hful⟩ := getExtendedLifetimePromise_spec s.event
  rw [hd]
  intro hd p hp
  rcases hful hd with hd | hnil
  · exact hok hd p hp
  · have hp : p ∈ s.event.extendLifetimePromises := hp
    rw [hnil] at hp
    cases hp

/-! ## Every run -/

variable [DecidableEq P]

variable {e : Ev P E}

theorem step_inv (h : Inv s) (hs : step s e = some s') : Inv s' := by
  cases e with
  | dispatch isTrusted =>
    obtain ⟨-, hs⟩ := ite_none_left_eq_some.mp hs
    obtain rfl := Option.some.inj hs
    exact { h with }
  | dispatched =>
    obtain ⟨-, hs⟩ := ite_none_right_eq_some.mp hs
    obtain rfl := Option.some.inj hs
    exact { h with }
  | waitUntil future =>
    obtain rfl := Option.some.inj hs
    exact waitUntil_inv h future
  | settle p o =>
    simp only [step] at hs
    split at hs
    · obtain rfl := Option.some.inj hs
      exact settle_inv h p o
    · cases hs
  | react =>
    simp only [step] at hs
    split at hs
    · rename_i o jobs hjobs
      obtain rfl := Option.some.inj hs
      exact react_inv h hjobs
    · cases hs
  | getExtendedLifetimePromise =>
    obtain rfl := Option.some.inj hs
    exact getExtendedLifetimePromise_inv h

theorem settle_ok (hok : Ok s) {p : P} (hs : step s (.settle p o) = some s') : Ok s' := by
  simp only [step] at hs
  split at hs
  · obtain rfl := Option.some.inj hs
    intro hful q hq
    by_cases hne : q = p
    · subst hne
      simp
    · show Function.update s.promise p (some o) q ≠ none
      rw [Function.update_of_ne hne]
      exact hok hful q hq
  · cases hs

theorem step_ok_iff (h : Inv s) (hok : Ok s) (hs : step s e = some s') : Ok s' ↔ InTime s e := by
  cases e with
  | dispatch isTrusted =>
    obtain ⟨-, hs⟩ := ite_none_left_eq_some.mp hs
    obtain rfl := Option.some.inj hs
    exact iff_of_true hok trivial
  | dispatched =>
    obtain ⟨-, hs⟩ := ite_none_right_eq_some.mp hs
    obtain rfl := Option.some.inj hs
    exact iff_of_true hok trivial
  | waitUntil future =>
    obtain rfl := Option.some.inj hs
    exact waitUntil_ok_iff hok future
  | settle p o => exact iff_of_true (settle_ok hok hs) trivial
  | react =>
    simp only [step] at hs
    split at hs
    · rename_i o jobs hjobs
      obtain rfl := Option.some.inj hs
      exact iff_of_true (react_ok h hok hjobs) trivial
    · cases hs
  | getExtendedLifetimePromise =>
    obtain rfl := Option.some.inj hs
    exact iff_of_true (getExtendedLifetimePromise_ok hok) trivial

theorem lifetime_iff {es : List (Ev P E)} {t : State P E} (hr : run step {} es = some t) :
    (∀ u, Reached step {} es u → Ok u) ↔ Along step InTime {} es :=
  reached_iff_along (fun _ _ _ h _ hs => step_inv h hs) (fun _ _ _ h _ hok hs => step_ok_iff h hok hs) start_inv nofun
    (along_true _ _) hr

/-- A listener passes two promises and a reaction of the first one a third, before the counter is down. -/
def extendingRun : List (Ev Nat Unit) :=
  [.dispatch true, .waitUntil 0, .waitUntil 1, .dispatched, .getExtendedLifetimePromise, .settle 0 .fulfilled, .waitUntil 2, .react,
    .settle 2 .fulfilled, .react, .settle 1 .fulfilled, .react]

theorem lifetime_extending :
    (run step {} extendingRun).map (·.event.extendLifetimeDeferred) = some (some .fulfilled) ∧
      ∀ u, Reached step {} extendingRun u → Ok u := by
  obtain ⟨t, hr, hful⟩ : ∃ t, run step {} extendingRun = some t ∧ t.event.extendLifetimeDeferred = some .fulfilled := ⟨_, rfl, rfl⟩
  refine ⟨by rw [hr, map_some, hful], (lifetime_iff hr).mpr (by decide)⟩

/-- A reaction that runs after the last one of `waitUntil` passes a promise: it is taken, and pending. -/
theorem extended_after_end :
    (run step ({} : State Nat Unit) [.dispatch true, .waitUntil 0, .dispatched, .getExtendedLifetimePromise, .settle 0 .fulfilled,
      .react, .waitUntil 1]).map (fun u => (u.event.extendLifetimeDeferred, u.event.extendLifetimePromises, u.promise 1)) =
      some (some .fulfilled, [0, 1], none) := rfl

/-! ## The end of the lifetime -/

/-- What is left to do before the lifetime promise is settled. -/
structure Undone (s : State P E) : Prop where
  pending : ∀ p ∈ s.reactions, p ∈ s.event.extendLifetimePromises ∧ s.promise p = none
  counted : s.event.extendLifetimeDeferred = none → s.event.extendLifetimePromises = [] ∨ 0 < s.event.pendingPromisesCount

omit [DecidableEq P] in
theorem waitUntil_undone (h : Inv s) (hu : Undone s) (future : P) : Undone (s.waitUntil future) := by
  have hcount := h.count
  unfold State.waitUntil
  split_ifs
  · refine ⟨fun p hp => ?_, fun _ => Or.inr ?_⟩
    · rw [mem_then_reactions] at hp
      rw [then_event, then_promise]
      rcases hp with hp | ⟨rfl, hnone⟩
      · exact ⟨mem_append_left _ (hu.pending p hp).1, (hu.pending p hp).2⟩
      · exact ⟨mem_append_right _ (mem_singleton_self _), hnone⟩
    · simp only [then_event]
      omega
  · exact hu

omit [DecidableEq P] in
theorem react_undone (h : Inv s) (hu : Undone s) (hjobs : s.jobs = o :: jobs) : Undone { s with event := s.event.onSettled o, jobs } := by
  have hcount := h.count
  rw [hjobs, length_cons] at hcount
  cases o with
  | fulfilled =>
    simp only [ExtendableEvent.onSettled]
    split_ifs with hzero
    · exact ⟨hu.pending, fun hnone => by simp [ExtendableEvent.settleDeferred] at hnone⟩
    · refine ⟨hu.pending, fun _ => Or.inr ?_⟩
      dsimp only at hzero ⊢
      omega
  | rejected err => exact ⟨hu.pending, fun hnone => by simp [ExtendableEvent.onSettled, ExtendableEvent.settleDeferred] at hnone⟩

theorem step_undone (h : Inv s) (hu : Undone s) (hs : step s e = some s') : Undone s' := by
  cases e with
  | dispatch isTrusted =>
    obtain ⟨-, hs⟩ := ite_none_left_eq_some.mp hs
    obtain rfl := Option.some.inj hs
    exact ⟨hu.pending, hu.counted⟩
  | dispatched =>
    obtain ⟨-, hs⟩ := ite_none_right_eq_some.mp hs
    obtain rfl := Option.some.inj hs
    exact ⟨hu.pending, hu.counted⟩
  | waitUntil future =>
    obtain rfl := Option.some.inj hs
    exact waitUntil_undone h hu future
  | settle p o =>
    simp only [step] at hs
    split at hs
    · obtain rfl := Option.some.inj hs
      refine ⟨fun q hq => ?_, hu.counted⟩
      obtain ⟨hq, hne⟩ := mem_filter.mp hq
      exact ⟨(hu.pending q hq).1, (Function.update_of_ne (of_decide_eq_true hne) ..).trans (hu.pending q hq).2⟩
    · cases hs
  | react =>
    simp only [step] at hs
    split at hs
    · next o jobs hjobs =>
      obtain rfl := Option.some.inj hs
      exact react_undone h hu hjobs
    · cases hs
  | getExtendedLifetimePromise =>
    obtain rfl := Option.some.inj hs
    unfold ExtendableEvent.getExtendedLifetimePromise
    split_ifs with hlen
    · exact ⟨hu.pending, fun _ => Or.inl (eq_nil_of_length_eq_zero hlen)⟩
    · exact hu

/-- When all promises that were taken are settled and no job is left, the lifetime promise is settled. -/
theorem lifetime_ends {es : List (Ev P E)} {t : State P E} (hr : run step {} es = some t) (hne : t.event.extendLifetimePromises ≠ [])
    (hall : ∀ p ∈ t.event.extendLifetimePromises, t.promise p ≠ none) (hjobs : t.jobs = []) : t.event.extendLifetimeDeferred ≠ none := by
  have h : Inv t ∧ Undone t := by
    refine run_inv (I := fun s => Inv s ∧ Undone s) (fun s e s' h _ hs => ⟨step_inv h.1 hs, step_undone h.1 h.2 hs⟩)
      ⟨start_inv, ⟨nofun, fun _ => Or.inl rfl⟩⟩ (along_true _ _) hr
  have hreactions : t.reactions = [] :=
    eq_nil_iff_forall_not_mem.mpr fun p hp => hall p (h.2.pending p hp).1 (h.2.pending p hp).2
  intro hnone
  have hcount := h.1.count
  rw [hreactions, hjobs] at hcount
  have hpos := (h.2.counted hnone).resolve_left hne
  simp only [length_nil] at hcount
  omega

theorem lifetime_ends_extending : ∃ t, run step {} extendingRun = some t ∧ t.event.extendLifetimeDeferred ≠ none :=
  ⟨_, rfl, lifetime_ends (show run step {} extendingRun = some _ from rfl) (by decide) (by decide) rfl⟩

end Aworker.Lifetime
