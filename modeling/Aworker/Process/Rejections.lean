/-
  Aworker.Process.Rejections — rejected promises without a handler (lib/process/execution.js:
  `emitPromiseRejection`, `processUnhandledRejection`; lib/task_queue.js: `tickTaskQueue`).

  The engine tells of a promise that is rejected without a handler, and of the handler that is
  attached to it later. Both go into a map, where the second takes the first out again. A tick
  runs the microtasks, takes the map as it is, puts an empty one in its place, and walks the
  entries: an event is dispatched for each, and the process exits if a rejection is not
  cancelled. Listeners run while the walk is under way. They may reject promises, attach
  handlers, and start a tick of their own.

  (1) `reports_sound`: no promise that has a handler when its turn comes is reported or ends
      the process, none is reported twice, and `rejectionhandled` comes after
      `unhandledrejection`, if no handler is attached to a promise whose entry a walk has
      taken and not yet reached (`Timely`). The map the handler goes into is not the one the
      walk is in.
  Trace: `handled_reported`.
-/

import Mathlib
import Aworker.Lib.Run

namespace Aworker.Process

open Aworker.Lib List Option Function

variable {P E : Type}

/-! ## The map of pending events -/

inductive PromiseEvent where
  | rejectWithNoHandler
  | handlerAddedAfterReject
  deriving DecidableEq

inductive EventName where
  | unhandledrejection
  | rejectionhandled
  deriving DecidableEq

def promiseRejectionEvents : PromiseEvent → EventName
  | .rejectWithNoHandler => .unhandledrejection
  | .handlerAddedAfterReject => .rejectionhandled

structure Entry (P E : Type) where
  event : PromiseEvent
  promise : P
  reason : Option E

/-- `Map.prototype.set`: a key that is there keeps its place. -/
def mapSet [DecidableEq P] (m : List (Entry P E)) (e : Entry P E) : List (Entry P E) :=
  if m.any (·.promise = e.promise) then m.map fun x => if x.promise = e.promise then e else x else m ++ [e]

def emitPromiseRejection [DecidableEq P] (pending : List (Entry P E)) (event : PromiseEvent) (promise : P) (reason : Option E) :
    List (Entry P E) :=
  match event with
  | .rejectWithNoHandler => mapSet pending { event, promise, reason }
  | .handlerAddedAfterReject =>
    if pending.any (·.promise = promise) then pending.filter (·.promise ≠ promise)
    else mapSet pending { event, promise, reason }

/-! ## Ticks -/

/-- Where a call of `tickTaskQueue` is. -/
inductive Phase (P E : Type) where
  /-- in `performMicrotaskCheckpoint` -/
  | checkpoint
  /-- at the next of the entries that are left -/
  | walking (rest : List (Entry P E))
  /-- in the listeners for an entry, whose promise had a handler or not -/
  | listeners (entry : Entry P E) (hadHandler : Bool) (rest : List (Entry P E))

inductive Shown (P E : Type) where
  | dispatched (name : EventName) (promise : P) (reason : Option E) (hadHandler : Bool)
  /-- the process exits over a promise's rejection -/
  | exit (promise : P) (hadHandler : Bool)
  /-- the process exits over a listener's exception -/
  | fatalError

structure State (P E : Type) where
  rejected : P → Bool := fun _ => false
  handled : P → Bool := fun _ => false
  /-- `promise_rejection_symbol` -/
  symbol : P → Option E := fun _ => none
  pendingPromiseEvents : List (Entry P E) := []
  /-- the ticks that have not returned, innermost first -/
  ticks : List (Phase P E) := []
  exited : Bool := false
  shown : List (Shown P E) := []

/-- The program's own code runs, not the walk. -/
def State.runsCode (s : State P E) : Bool :=
  match s.ticks with
  | .walking _ :: _ => false
  | _ => true

inductive Ev (P E : Type) where
  | reject (promise : P) (reason : E)
  | attach (promise : P)
  | tickTaskQueue
  /-- the microtasks are done -/
  | processUnhandledRejection
  /-- the walk goes on to its next entry, or to its end -/
  | turn (hasListeners : Bool)
  | listened (canceled : Bool)
  | threw

/-- The rest of a turn: exit, or on to the next entry. -/
def State.conclude (s : State P E) (e : Entry P E) (hadHandler canceled : Bool) (rest : List (Entry P E)) (ticks : List (Phase P E)) :
    State P E :=
  if !canceled && e.event = .rejectWithNoHandler then
    { s with exited := true, shown := s.shown ++ [.exit e.promise hadHandler] }
  else { s with ticks := .walking rest :: ticks }

variable [DecidableEq P]

def State.visit (s : State P E) (e : Entry P E) (hasListeners : Bool) (rest : List (Entry P E)) (ticks : List (Phase P E)) :
    State P E :=
  let symbol := if e.event = .rejectWithNoHandler then Function.update s.symbol e.promise e.reason else s.symbol
  let reason := if e.event = .handlerAddedAfterReject then symbol e.promise else e.reason
  let hadHandler := s.handled e.promise
  if hasListeners then
    { s with
      symbol
      ticks := .listeners e hadHandler rest :: ticks
      shown := s.shown ++ [.dispatched (promiseRejectionEvents e.event) e.promise reason hadHandler] }
  else State.conclude { s with symbol } e hadHandler false rest ticks

def State.act (s : State P E) : Ev P E → Option (State P E)
  | .reject p reason =>
    -- a promise is rejected once
    if s.runsCode && !s.rejected p then
      some { s with
        rejected := Function.update s.rejected p true
        pendingPromiseEvents := emitPromiseRejection s.pendingPromiseEvents .rejectWithNoHandler p (some reason) }
    else none
  | .attach p =>
    -- the engine tells of the first handler only, and without a reason
    if s.runsCode && s.rejected p && !s.handled p then
      some { s with
        handled := Function.update s.handled p true
        pendingPromiseEvents := emitPromiseRejection s.pendingPromiseEvents .handlerAddedAfterReject p none }
    else none
  | .tickTaskQueue => if s.runsCode then some { s with ticks := .checkpoint :: s.ticks } else none
  | .processUnhandledRejection =>
    match s.ticks with
    | .checkpoint :: ticks => some { s with pendingPromiseEvents := [], ticks := .walking s.pendingPromiseEvents :: ticks }
    | _ => none
  | .turn hasListeners =>
    match s.ticks with
    | .walking [] :: ticks =>
      -- `tickTaskQueue` goes on until nothing is pending
      some { s with ticks := if s.pendingPromiseEvents.isEmpty then ticks else .checkpoint :: ticks }
    | .walking (e :: rest) :: ticks => some (s.visit e hasListeners rest ticks)
    | _ => none
  | .listened canceled =>
    match s.ticks with
    | .listeners e hadHandler rest :: ticks => some (s.conclude e hadHandler canceled rest ticks)
    | _ => none
  | .threw =>
    match s.ticks with
    | .listeners _ _ _ :: _ => some { s with exited := true, shown := s.shown ++ [.fatalError] }
    | _ => none

def step (s : State P E) (ev : Ev P E) : Option (State P E) := if s.exited then none else s.act ev

/-! ## What is shown -/

def Shown.reports : Shown P E → Option P
  | .dispatched .unhandledrejection p _ _ => some p
  | _ => none

/-- The promises that `unhandledrejection` was dispatched for. -/
def reported (shown : List (Shown P E)) : List P := shown.filterMap Shown.reports

structure Sound (shown : List (Shown P E)) : Prop where
  events : ∀ p reason, .dispatched .unhandledrejection p reason true ∉ shown
  exits : ∀ p, .exit p true ∉ shown
  once : (reported shown).Nodup
  order : ∀ pre p reason hadHandler post, shown = pre ++ .dispatched .rejectionhandled p reason hadHandler :: post → p ∈ reported pre

def Phase.rest : Phase P E → List (Entry P E)
  | .checkpoint => []
  | .walking rest => rest
  | .listeners _ _ rest => rest

/-- A handler is not attached to a promise that a walk is going to report. -/
def Timely (s : State P E) : Ev P E → Prop
  | .attach p => ∀ e ∈ s.ticks.flatMap Phase.rest, e.event = .rejectWithNoHandler → e.promise ≠ p
  | _ => True

instance Timely.decidable (s : State P E) : ∀ ev, Decidable (Timely s ev)
  | .attach p => inferInstanceAs (Decidable (∀ e ∈ s.ticks.flatMap Phase.rest, e.event = .rejectWithNoHandler → e.promise ≠ p))
  | .reject _ _ | .tickTaskQueue | .processUnhandledRejection | .turn _ | .listened _ | .threw => isTrue trivial

/-- What may be shown next. -/
def Shown.Fits (shown : List (Shown P E)) : Shown P E → Prop
  | .dispatched .unhandledrejection p _ hadHandler => hadHandler = false ∧ p ∉ reported shown
  | .dispatched .rejectionhandled p _ _ => p ∈ reported shown
  | .exit _ hadHandler => hadHandler = false
  | .fatalError => True

omit [DecidableEq P] in
theorem reported_snoc (shown : List (Shown P E)) (x : Shown P E) : reported (shown ++ [x]) = reported shown ++ x.reports.toList := by
  cases hx : x.reports <;> simp [reported, hx]

omit [DecidableEq P] in
theorem Sound.snoc {shown : List (Shown P E)} {x : Shown P E} (h : Sound shown) (hx : x.Fits shown) : Sound (shown ++ [x]) := by
  refine ⟨fun p reason hmem => ?_, fun p hmem => ?_, ?_, fun pre p reason hadHandler post heq => ?_⟩
  · rcases mem_append.mp hmem with hmem | hmem
    · exact h.events p reason hmem
    · obtain rfl := mem_singleton.mp hmem
      exact absurd hx.1 (by simp)
  · rcases mem_append.mp hmem with hmem | hmem
    · exact h.exits p hmem
    · obtain rfl := mem_singleton.mp hmem
      exact absurd hx (by simp [Shown.Fits])
  · rw [reported_snoc]
    cases hr : x.reports with
    | none => simpa using h.once
    | some p =>
      have hnew : p ∉ reported shown := by
        unfold Shown.reports at hr
        split at hr
        · obtain rfl := Option.some.inj hr
          exact hx.2
        · cases hr
      rw [toList_some, ← concat_eq_append]
      exact h.once.concat hnew
  · rcases eq_nil_or_concat post with rfl | ⟨post, y, rfl⟩
    · obtain ⟨rfl, hlast⟩ := append_inj' heq rfl
      obtain rfl := singleton_inj.mp hlast
      exact hx
    · refine h.order pre p reason hadHandler post ?_
      rw [concat_eq_append, ← cons_append, ← append_assoc] at heq
      exact (append_inj' heq rfl).1

/-! ## The books -/

/-- What the entries that have not been reached say of the promises. -/
structure Books (rejected handled : P → Bool) (reported : List P) (entries : List (Entry P E)) : Prop where
  fresh : ∀ e ∈ entries, e.event = .rejectWithNoHandler → rejected e.promise = true ∧ handled e.promise = false ∧ e.promise ∉ reported
  once : ((entries.filter (·.event = .rejectWithNoHandler)).map (·.promise)).Nodup
  added : ∀ e ∈ entries, e.event = .handlerAddedAfterReject → handled e.promise = true ∧ e.promise ∈ reported
  known : ∀ p, rejected p = true → handled p = false →
    (∃ e ∈ entries, e.event = .rejectWithNoHandler ∧ e.promise = p) ∨ p ∈ reported
  handled : ∀ p, handled p = true → rejected p = true
  reported : ∀ p ∈ reported, rejected p = true

section

variable {rejected handled : P → Bool} {reported : List P} {entries entries' : List (Entry P E)} {e : Entry P E} {p : P}

omit [DecidableEq P] in
theorem Books.perm (h : Books rejected handled reported entries) (hp : entries.Perm entries') :
    Books rejected handled reported entries' := by
  refine { h with fresh := ?_, once := ?_, added := ?_, known := ?_ }
  · intro e he
    exact h.fresh e (hp.mem_iff.mpr he)
  · exact (((hp.filter _).map _).nodup_iff).mp h.once
  · intro e he
    exact h.added e (hp.mem_iff.mpr he)
  · intro p hr hh
    rcases h.known p hr hh with ⟨e, he, hev⟩ | hrep
    · exact Or.inl ⟨e, hp.mem_iff.mp he, hev⟩
    · exact Or.inr hrep

omit [DecidableEq P] in
theorem Books.rejected_of_mem (h : Books rejected handled reported entries) (he : e ∈ entries) : rejected e.promise = true := by
  cases hev : e.event with
  | rejectWithNoHandler => exact (h.fresh e he hev).1
  | handlerAddedAfterReject => exact h.handled _ (h.added e he hev).1

theorem Books.reject (h : Books rejected handled reported entries) (hev : e.event = .rejectWithNoHandler)
    (hnew : rejected e.promise = false) : Books (Function.update rejected e.promise true) handled reported (e :: entries) := by
  have hmono : ∀ q, rejected q = true → Function.update rejected e.promise true q = true := by
    intro q hq
    by_cases hqe : q = e.promise
    · rw [hqe, update_self]
    · rw [update_of_ne hqe, hq]
  have hother : ∀ q, q ≠ e.promise → Function.update rejected e.promise true q = true → rejected q = true := by
    intro q hqe hq
    rwa [update_of_ne hqe] at hq
  refine ⟨?_, ?_, ?_, ?_, fun q hq => hmono q (h.handled q hq), fun q hq => hmono q (h.reported q hq)⟩
  · intro x hx hxev
    rcases mem_cons.mp hx with rfl | hx
    · refine ⟨update_self _ _ _, ?_, ?_⟩
      · by_contra hh
        rw [h.handled _ (by simpa using hh)] at hnew
        cases hnew
      · intro hrep
        rw [h.reported _ hrep] at hnew
        cases hnew
    · obtain ⟨hr, hrest⟩ := h.fresh x hx hxev
      exact ⟨hmono _ hr, hrest⟩
  · rw [filter_cons_of_pos (by simpa using hev), map_cons, nodup_cons]
    refine ⟨?_, h.once⟩
    intro hmem
    obtain ⟨x, hx, hxe⟩ := List.mem_map.mp hmem
    have hr := h.rejected_of_mem (mem_of_mem_filter hx)
    rw [hxe, hnew] at hr
    cases hr
  · intro x hx hxev
    rcases mem_cons.mp hx with rfl | hx
    · rw [hev] at hxev
      cases hxev
    · exact h.added x hx hxev
  · intro q hq hh
    by_cases hqe : q = e.promise
    · exact Or.inl ⟨e, mem_cons_self, hev, hqe.symm⟩
    · rcases h.known q (hother q hqe hq) hh with ⟨x, hx, hxev⟩ | hrep
      · exact Or.inl ⟨x, mem_cons_of_mem _ hx, hxev⟩
      · exact Or.inr hrep

theorem Books.withdraw (h : Books rejected handled reported entries) (hr : rejected p = true) :
    Books rejected (Function.update handled p true) reported (entries.filter (·.promise ≠ p)) := by
  have hkeep : ∀ e ∈ entries.filter (·.promise ≠ p), e ∈ entries ∧ e.promise ≠ p := by
    intro e he
    simpa using he
  refine ⟨?_, ?_, ?_, ?_, ?_, h.reported⟩
  · intro e he hev
    obtain ⟨he, hne⟩ := hkeep e he
    rw [update_of_ne hne]
    exact h.fresh e he hev
  · exact h.once.sublist ((filter_sublist.filter _).map _)
  · intro e he hev
    obtain ⟨he, hne⟩ := hkeep e he
    rw [update_of_ne hne]
    exact h.added e he hev
  · intro q hq hh
    have hqp : q ≠ p := by
      rintro rfl
      rw [update_self] at hh
      cases hh
    rw [update_of_ne hqp] at hh
    rcases h.known q hq hh with ⟨e, he, hev, rfl⟩ | hrep
    · exact Or.inl ⟨e, mem_filter.mpr ⟨he, by simpa using hqp⟩, hev, rfl⟩
    · exact Or.inr hrep
  · intro q hq
    by_cases hqp : q = p
    · rw [hqp, hr]
    · rw [update_of_ne hqp] at hq
      exact h.handled q hq

omit [DecidableEq P] in
theorem Books.add (h : Books rejected handled reported entries) (hev : e.event = .handlerAddedAfterReject)
    (hh : handled e.promise = true) (hrep : e.promise ∈ reported) : Books rejected handled reported (e :: entries) := by
  refine { h with fresh := ?_, once := ?_, added := ?_, known := ?_ }
  · intro x hx hxev
    rcases mem_cons.mp hx with rfl | hx
    · rw [hev] at hxev
      cases hxev
    · exact h.fresh x hx hxev
  · rw [filter_cons_of_neg (by simp [hev])]
    exact h.once
  · intro x hx hxev
    rcases mem_cons.mp hx with rfl | hx
    · exact ⟨hh, hrep⟩
    · exact h.added x hx hxev
  · intro q hq hh
    rcases h.known q hq hh with ⟨x, hx, hxev⟩ | hrep
    · exact Or.inl ⟨x, mem_cons_of_mem _ hx, hxev⟩
    · exact Or.inr hrep

omit [DecidableEq P] in
theorem Books.report (h : Books rejected handled reported (e :: entries)) (hev : e.event = .rejectWithNoHandler) :
    Books rejected handled (reported ++ [e.promise]) entries := by
  have honce := h.once
  rw [filter_cons_of_pos (by simpa using hev), map_cons, nodup_cons] at honce
  refine ⟨?_, honce.2, ?_, ?_, h.handled, ?_⟩
  · intro x hx hxev
    obtain ⟨hr, hh, hrep⟩ := h.fresh x (mem_cons_of_mem e hx) hxev
    refine ⟨hr, hh, ?_⟩
    rw [mem_append, mem_singleton, not_or]
    refine ⟨hrep, fun heq => honce.1 ?_⟩
    rw [← heq]
    exact List.mem_map_of_mem (mem_filter.mpr ⟨hx, by simpa using hxev⟩)
  · intro x hx hxev
    obtain ⟨hh, hrep⟩ := h.added x (mem_cons_of_mem e hx) hxev
    exact ⟨hh, mem_append_left _ hrep⟩
  · intro q hq hh
    rcases h.known q hq hh with ⟨x, hx, hxev, rfl⟩ | hrep
    · rcases mem_cons.mp hx with rfl | hx
      · exact Or.inr (mem_append_right _ (mem_singleton_self _))
      · exact Or.inl ⟨x, hx, hxev, rfl⟩
    · exact Or.inr (mem_append_left _ hrep)
  · exact forall_mem_append.mpr ⟨h.reported, forall_mem_singleton.mpr (h.fresh e mem_cons_self hev).1⟩

omit [DecidableEq P] in
theorem Books.pass (h : Books rejected handled reported (e :: entries)) (hev : e.event ≠ .rejectWithNoHandler) :
    Books rejected handled reported entries := by
  have honce := h.once
  rw [filter_cons_of_neg (by simpa using hev)] at honce
  have hmem : ∀ x ∈ entries, x ∈ e :: entries := fun x hx => mem_cons_of_mem e hx
  refine { h with fresh := fun x hx => h.fresh x (hmem x hx), once := honce, added := fun x hx => h.added x (hmem x hx), known := ?_ }
  intro q hq hh
  rcases h.known q hq hh with ⟨x, hx, hxev, hxq⟩ | hrep
  · rcases mem_cons.mp hx with rfl | hx
    · exact absurd hxev hev
    · exact Or.inl ⟨x, hx, hxev, hxq⟩
  · exact Or.inr hrep

end

/-! ## Steps -/

variable {s s' : State P E}

def unreached (pending : List (Entry P E)) (ticks : List (Phase P E)) : List (Entry P E) := pending ++ ticks.flatMap Phase.rest

omit [DecidableEq P] in
theorem unreached_snoc (m : List (Entry P E)) (e : Entry P E) (ticks : List (Phase P E)) :
    (e :: unreached m ticks).Perm (unreached (m ++ [e]) ticks) := by
  rw [unreached, unreached, append_assoc]
  exact perm_middle.symm

omit [DecidableEq P] in
theorem unreached_walking (m : List (Entry P E)) (e : Entry P E) (rest : List (Entry P E)) (ticks : List (Phase P E)) :
    (unreached m (.walking (e :: rest) :: ticks)).Perm (e :: unreached m (.walking rest :: ticks)) :=
  perm_middle

structure Inv (s : State P E) : Prop where
  sound : Sound s.shown
  books : s.exited = false → Books s.rejected s.handled (reported s.shown) (unreached s.pendingPromiseEvents s.ticks)
  had : s.exited = false →
    ∀ e hadHandler rest, .listeners e hadHandler rest ∈ s.ticks → e.event = .rejectWithNoHandler → hadHandler = false

variable {e : Entry P E}

theorem mapSet_new {m : List (Entry P E)} (h : ∀ x ∈ m, x.promise ≠ e.promise) : mapSet m e = m ++ [e] := by
  refine if_neg ?_
  simpa using h

variable {p : P}

theorem Inv.reject {reason : E} (hi : Inv s) (hex : s.exited = false) (hnew : s.rejected p = false) : Inv { s with
      rejected := Function.update s.rejected p true
      pendingPromiseEvents := emitPromiseRejection s.pendingPromiseEvents .rejectWithNoHandler p (some reason) } := by
  refine { hi with books := fun _ => ?_ }
  have hb := hi.books hex
  have hset : emitPromiseRejection s.pendingPromiseEvents .rejectWithNoHandler p (some reason) =
      s.pendingPromiseEvents ++ [⟨.rejectWithNoHandler, p, some reason⟩] := by
    refine mapSet_new fun x hx hxp => ?_
    have hr := hb.rejected_of_mem (mem_append_left _ hx)
    rw [hxp, hnew] at hr
    cases hr
  simp only [hset]
  exact (hb.reject (e := ⟨.rejectWithNoHandler, p, some reason⟩) rfl hnew).perm (unreached_snoc _ _ _)

theorem Inv.attach (hi : Inv s) (hex : s.exited = false) (hr : s.rejected p = true) (hh : s.handled p = false)
    (ht : Timely s (.attach p)) :
    Inv { s with
      handled := Function.update s.handled p true
      pendingPromiseEvents := emitPromiseRejection s.pendingPromiseEvents .handlerAddedAfterReject p none } := by
  refine { hi with books := fun _ => ?_ }
  have hb := hi.books hex
  -- an entry of the promise is its rejection, and not one that a walk has taken
  have hkind : ∀ e ∈ unreached s.pendingPromiseEvents s.ticks, e.promise = p → e.event = .rejectWithNoHandler := by
    intro e he hep
    cases hev : e.event with
    | rejectWithNoHandler => rfl
    | handlerAddedAfterReject =>
      have hadd := (hb.added e he hev).1
      rw [hep, hh] at hadd
      cases hadd
  have hrest : ∀ e ∈ s.ticks.flatMap Phase.rest, e.promise ≠ p := by
    intro e he hep
    exact ht e he (hkind e (mem_append_right _ he) hep) hep
  have hkeep : (s.ticks.flatMap Phase.rest).filter (·.promise ≠ p) = s.ticks.flatMap Phase.rest :=
    filter_eq_self.mpr (by simpa using hrest)
  have hb' := hb.withdraw hr
  rw [unreached, filter_append, hkeep] at hb'
  by_cases hany : s.pendingPromiseEvents.any (·.promise = p) = true
  · have hdel : emitPromiseRejection s.pendingPromiseEvents .handlerAddedAfterReject p none =
        s.pendingPromiseEvents.filter (·.promise ≠ p) := if_pos hany
    simp only [hdel]
    exact hb'
  · have hnone : ∀ e ∈ s.pendingPromiseEvents, e.promise ≠ p := by simpa using hany
    have hset : emitPromiseRejection s.pendingPromiseEvents .handlerAddedAfterReject p none =
        s.pendingPromiseEvents ++ [⟨.handlerAddedAfterReject, p, none⟩] := (if_neg hany).trans (mapSet_new hnone)
    have hrep : p ∈ reported s.shown := by
      rcases hb.known p hr hh with ⟨e, he, -, hep⟩ | hrep
      · rcases mem_append.mp he with he | he
        · exact absurd hep (hnone e he)
        · exact absurd hep (hrest e he)
      · exact hrep
    rw [filter_eq_self.mpr (by simpa using hnone)] at hb'
    simp only [hset]
    exact (hb'.add (e := ⟨.handlerAddedAfterReject, p, none⟩) rfl (update_self _ _ _) hrep).perm (unreached_snoc _ _ _)

variable {rest : List (Entry P E)} {ticks : List (Phase P E)}

omit [DecidableEq P] in
theorem Inv.conclude {hadHandler canceled : Bool}
    (hs : Sound s.shown) (hhad : e.event = .rejectWithNoHandler → hadHandler = false)
    (hi : canceled = true ∨ e.event ≠ .rejectWithNoHandler → Inv { s with ticks := .walking rest :: ticks }) :
    Inv (s.conclude e hadHandler canceled rest ticks) := by
  unfold State.conclude
  split
  · next hcond =>
    rw [Bool.and_eq_true, decide_eq_true_eq] at hcond
    refine ⟨hs.snoc (hhad hcond.2), ?_, ?_⟩
    · intro hex
      cases hex
    · intro hex
      cases hex
  · next hcond =>
    refine hi ?_
    rw [Bool.and_eq_true, decide_eq_true_eq, not_and_or] at hcond
    simpa using hcond

omit [DecidableEq P] in
theorem Inv.move {pending : List (Entry P E)} (hi : Inv s)
    (hp : (unreached s.pendingPromiseEvents s.ticks).Perm (unreached pending ticks))
    (hl : ∀ e hadHandler rest, .listeners e hadHandler rest ∈ ticks → .listeners e hadHandler rest ∈ s.ticks) :
    Inv { s with pendingPromiseEvents := pending, ticks } :=
  ⟨hi.sound, fun hex => (hi.books hex).perm hp, fun hex e hadHandler rest he => hi.had hex e hadHandler rest (hl _ _ _ he)⟩

theorem Inv.visit {hasListeners : Bool} (hi : Inv s)
    (hex : s.exited = false) (ht : s.ticks = .walking (e :: rest) :: ticks) : Inv (s.visit e hasListeners rest ticks) := by
  have hb : Books s.rejected s.handled (reported s.shown) (e :: unreached s.pendingPromiseEvents (.walking rest :: ticks)) := by
    refine (hi.books hex).perm ?_
    rw [ht]
    exact unreached_walking _ _ _ _
  have hhad : e.event = .rejectWithNoHandler → s.handled e.promise = false := fun hev => (hb.fresh e mem_cons_self hev).2.1
  have hticks : ∀ x hadHandler rest, .listeners x hadHandler rest ∈ ticks → x.event = .rejectWithNoHandler → hadHandler = false := by
    intro x hadHandler rest hx
    exact hi.had hex x hadHandler rest (by rw [ht]; exact mem_cons_of_mem _ hx)
  cases hasListeners with
  | true =>
    refine ⟨hi.sound.snoc (x := .dispatched (promiseRejectionEvents e.event) e.promise _ (s.handled e.promise)) ?_, fun _ => ?_,
      fun _ x hadHandler rest' hx hev => ?_⟩
    · cases hev : e.event with
      | rejectWithNoHandler => exact ⟨hhad hev, (hb.fresh e mem_cons_self hev).2.2⟩
      | handlerAddedAfterReject => exact (hb.added e mem_cons_self hev).2
    · show Books s.rejected s.handled (reported (s.shown ++ [.dispatched (promiseRejectionEvents e.event) e.promise _ _])) _
      rw [reported_snoc]
      cases hev : e.event with
      | rejectWithNoHandler => exact hb.report hev
      | handlerAddedAfterReject =>
        rw [promiseRejectionEvents, Shown.reports, toList_none, append_nil]
        · exact hb.pass (by simp [hev])
        · simp
    · rcases mem_cons.mp hx with heq | hx
      · injection heq with he hh
        rw [he] at hev
        rw [hh, hhad hev]
      · exact hticks x hadHandler rest' hx hev
  | false =>
    refine Inv.conclude hi.sound hhad fun hne => ⟨hi.sound, fun _ => ?_, fun _ x hadHandler rest' hx hev => ?_⟩
    · exact hb.pass (by simpa using hne)
    · rcases mem_cons.mp hx with heq | hx
      · cases heq
      · exact hticks x hadHandler rest' hx hev

theorem step_inv {ev : Ev P E} (hi : Inv s) (ht : Timely s ev) (hs : step s ev = some s') : Inv s' := by
  obtain ⟨hex, hs⟩ := ite_none_left_eq_some.mp hs
  rw [Bool.not_eq_true] at hex
  cases ev with
  | reject p reason =>
    obtain ⟨hguard, hs⟩ := ite_none_right_eq_some.mp hs
    obtain rfl := Option.some.inj hs
    rw [Bool.and_eq_true, Bool.not_eq_true'] at hguard
    exact hi.reject hex hguard.2
  | attach p =>
    obtain ⟨hguard, hs⟩ := ite_none_right_eq_some.mp hs
    obtain rfl := Option.some.inj hs
    rw [Bool.and_eq_true, Bool.and_eq_true, Bool.not_eq_true'] at hguard
    exact hi.attach hex hguard.1.2 hguard.2 ht
  | tickTaskQueue =>
    obtain ⟨-, hs⟩ := ite_none_right_eq_some.mp hs
    obtain rfl := Option.some.inj hs
    exact hi.move (List.Perm.refl _) (by simp)
  | processUnhandledRejection =>
    simp only [State.act] at hs
    split at hs
    · next ticks htk =>
      obtain rfl := Option.some.inj hs
      exact hi.move (by rw [htk]; exact List.Perm.refl _) (by simp [htk])
    · cases hs
  | turn hasListeners =>
    simp only [State.act] at hs
    split at hs
    · next ticks htk =>
      obtain rfl := Option.some.inj hs
      refine hi.move ?_ ?_
      · rw [htk]
        split <;> exact List.Perm.refl _
      · rw [htk]
        split <;> simp
    · next e rest ticks htk =>
      obtain rfl := Option.some.inj hs
      exact hi.visit hex htk
    · cases hs
  | listened canceled =>
    simp only [State.act] at hs
    split at hs
    · next e hadHandler rest ticks htk =>
      obtain rfl := Option.some.inj hs
      refine Inv.conclude hi.sound (hi.had hex e hadHandler rest (by rw [htk]; exact mem_cons_self)) fun _ => ?_
      exact hi.move (by rw [htk]; exact List.Perm.refl _) (by simp +contextual [htk])
    · cases hs
  | threw =>
    simp only [State.act] at hs
    split at hs
    · obtain rfl := Option.some.inj hs
      refine ⟨hi.sound.snoc trivial, ?_, ?_⟩
      · intro hex
        cases hex
      · intro hex
        cases hex
    · cases hs

omit [DecidableEq P] in
theorem inv_start : Inv ({} : State P E) := by
  refine ⟨⟨by simp, by simp, nodup_nil, by simp⟩, fun _ => ?_, by simp⟩
  exact ⟨by simp [unreached], by simp [unreached], by simp [unreached], by simp, by simp, by simp [reported]⟩

theorem reports_sound {evs : List (Ev P E)} {t : State P E} (ht : Along step Timely {} evs) (hr : run step {} evs = some t) :
    Sound t.shown :=
  (run_inv (fun _ _ _ hi hq hs => step_inv hi hq hs) inv_start ht hr).sound

/-- A listener handles its own promise, and one that is rejected meanwhile. -/
def handledLate : List (Ev Nat Nat) :=
  [.reject 1 10, .tickTaskQueue, .processUnhandledRejection, .turn true, .reject 2 20, .attach 2, .attach 1, .listened true,
    .turn true, .processUnhandledRejection, .turn true, .listened false, .turn true]

theorem handledLate_sound :
    ∃ t, run step {} handledLate = some t ∧
      t.shown = [.dispatched .unhandledrejection 1 (some 10) false, .dispatched .rejectionhandled 1 (some 10) true] ∧
      Sound t.shown := by
  obtain ⟨t, hr, hshown⟩ : ∃ t, run step {} handledLate = some t ∧
      t.shown = [.dispatched .unhandledrejection 1 (some 10) false, .dispatched .rejectionhandled 1 (some 10) true] := ⟨_, rfl, rfl⟩
  have ht : Along step Timely {} handledLate := by decide
  exact ⟨t, hr, hshown, reports_sound ht hr⟩

/-- A listener handles the promise whose turn comes next; the process exits over it. The
second run starts a tick in the listener, before the walk goes on. -/
theorem handled_reported :
    (∃ t, run step {} [.reject 1 10, .reject (2 : Nat) 20, .tickTaskQueue, .processUnhandledRejection, .turn true, .attach 2,
        .listened true, .turn true, .listened false] = some t ∧
      t.shown = [.dispatched .unhandledrejection 1 (some 10) false, .dispatched .unhandledrejection 2 (some 20) true, .exit 2 true]) ∧
    ∃ t, run step {} [.reject 1 10, .reject (2 : Nat) 20, .tickTaskQueue, .processUnhandledRejection, .turn true, .attach 2,
        .tickTaskQueue, .processUnhandledRejection, .turn true, .listened false, .turn true, .listened true, .turn true] = some t ∧
      t.shown = [.dispatched .unhandledrejection 1 (some 10) false, .dispatched .rejectionhandled 2 none true,
        .dispatched .unhandledrejection 2 (some 20) true] :=
  ⟨⟨_, rfl, rfl⟩, _, rfl, rfl⟩

end Aworker.Process
