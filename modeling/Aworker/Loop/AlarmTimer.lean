/-
  Aworker.Loop.AlarmTimer — script timeouts by SIGALRM (src/alarm_timer.cc: `AlarmTimer`,
  `AlarmTimerLathe`, `SetNextITimer`).

  All timers share the process's one interval timer. They are kept in a `std::set`; a signal
  runs the handlers of those that are due and arms the interval timer for the next one.
  Timers that have fired stay in the set until a timer is made, and then only those at its
  front are deleted.

  `AlarmTimerCompare` is not an order: of two timers each may be less than the other. Along
  the set it still changes from false to true once, for a new timer has the greatest id.

  Every reading of the clock is part of the event, and so is the shape of the tree a new timer
  is put in. `triggerAt` is how a trigger time is made of the time and the timeout; the sum is
  made in doubles, and `exactTrigger` is its value.

  Main results: `alarm_timers_fire`, `armed_iff`.
-/

import Mathlib
import Aworker.Lib.Run
import Aworker.Lib.SearchTree

namespace Aworker.Alarm

open Aworker.Lib List

/-! ## The lathe -/

structure AlarmTimer where
  id : Nat
  trigger : Nat
  timeouted : Bool := false
  deriving DecidableEq

def alarmTimerCompare (a b : AlarmTimer) : Bool := if a.trigger < b.trigger then true else a.id < b.id

/-- `it_value` -/
structure ITimer where
  sec : Nat
  usec : Nat
  deriving DecidableEq

/-- The value that disarms. -/
def ITimer.zero : ITimer := ⟨0, 0⟩

def setNextITimer (trigger base : Nat) : ITimer :=
  if base ≤ trigger then ⟨(trigger - base) / 10 ^ 9, (trigger - base) % 10 ^ 9 / 10 ^ 3⟩ else ⟨0, 1⟩

structure Handled where
  id : Nat
  now : Nat

/-- A call of `close`, and how many timers had been made and how many handlers been run. -/
structure Closed where
  id : Nat
  created : Nat
  handled : Nat

structure Lathe where
  /-- in the order of iteration -/
  set : List AlarmTimer := []
  /-- the last call of `setitimer` -/
  itimer : Option ITimer := none
  /-- the trigger times of all timers made; `_next_sequence` is their number -/
  created : List Nat := []
  handled : List Handled := []
  closed : List Closed := []

inductive Ev where
  /-- the time in the constructor and the time after the insertion -/
  | createTimer (timeout whenSet now : Nat) (tree : BinaryTree AlarmTimer)
  | close (id now : Nat)
  | signal (now : Nat)

def exactTrigger (whenSet timeout : Nat) : Nat := whenSet + timeout * 10 ^ 6

/-- What a signal leaves: the set, the timers whose handlers it ran, and the trigger time it armed for. -/
structure Dispatch where
  set : List AlarmTimer
  ran : List AlarmTimer
  next : Option Nat

/-- `DispatchSignal` -/
def dispatch (now : Nat) : List AlarmTimer → Dispatch
  | [] => ⟨[], [], none⟩
  | timer :: rest =>
    if now < timer.trigger then ⟨timer :: rest, [], some timer.trigger⟩
    else if timer.timeouted then { dispatch now rest with set := timer :: (dispatch now rest).set }
    else
      { set := { timer with timeouted := true } :: (dispatch now rest).set
        ran := timer :: (dispatch now rest).ran
        next := (dispatch now rest).next }

def lazyDelete (set : List AlarmTimer) : List AlarmTimer := set.dropWhile (·.timeouted)

def newTimer (triggerAt : Nat → Nat → Nat) (s : Lathe) (timeout whenSet : Nat) : AlarmTimer :=
  { id := s.created.length, trigger := triggerAt whenSet timeout }

/-- The arguments of the step's call of `SetNextITimer`, if it makes one. -/
def nextITimer (triggerAt : Nat → Nat → Nat) (s : Lathe) : Ev → Option (Nat × Nat)
  | .createTimer timeout whenSet now tree =>
    (insertUnique alarmTimerCompare (newTimer triggerAt s timeout whenSet) tree).head?.map (·.trigger, now)
  | .close id now => (s.set.eraseP (·.id = id)).head?.map (·.trigger, now)
  | .signal now => (dispatch now s.set).next.map (·, now)

def step (triggerAt : Nat → Nat → Nat) (s : Lathe) : Ev → Option Lathe
  | .createTimer timeout whenSet now tree =>
    if inorder tree = lazyDelete s.set then
      some { s with
        set := insertUnique alarmTimerCompare (newTimer triggerAt s timeout whenSet) tree
        created := s.created ++ [triggerAt whenSet timeout]
        itimer := match nextITimer triggerAt s (.createTimer timeout whenSet now tree) with
          | some (trigger, base) => some (setNextITimer trigger base)
          | none => s.itimer }
    else none
  | .close id now =>
    some { s with
      set := s.set.eraseP (·.id = id)
      closed := s.closed ++ [{ id, created := s.created.length, handled := s.handled.length }]
      itimer := match nextITimer triggerAt s (.close id now) with
        | some (trigger, base) => some (setNextITimer trigger base)
        | none => some .zero }
  | .signal now =>
    some { s with
      set := (dispatch now s.set).set
      handled := s.handled ++ (dispatch now s.set).ran.map fun timer => { id := timer.id, now }
      itimer := match nextITimer triggerAt s (.signal now) with
        | some (trigger, base) => some (setNextITimer trigger base)
        | none => s.itimer }

/-! ## The order of the set -/

/-- By trigger time, then by id. -/
def Before (a b : AlarmTimer) : Prop := a.trigger < b.trigger ∨ a.trigger = b.trigger ∧ a.id < b.id

variable {set : List AlarmTimer}

theorem split_at (h : set.Pairwise Before) (trigger : Nat) :
    ∃ a b, set = a ++ b ∧ (∀ y ∈ a, y.trigger ≤ trigger) ∧ ∀ y ∈ b, trigger < y.trigger := by
  induction set with
  | nil => exact ⟨[], [], rfl, nofun, nofun⟩
  | cons x set ih =>
    obtain ⟨hx, hset⟩ := pairwise_cons.mp h
    by_cases hlt : trigger < x.trigger
    · refine ⟨[], x :: set, rfl, nofun, fun y hy => ?_⟩
      rcases mem_cons.mp hy with rfl | hy
      · exact hlt
      · have := hx y hy
        simp only [Before] at this
        omega
    · obtain ⟨a, b, rfl, ha, hb⟩ := ih hset
      refine ⟨x :: a, b, rfl, fun y hy => ?_, hb⟩
      rcases mem_cons.mp hy with rfl | hy
      · exact not_lt.mp hlt
      · exact ha y hy

variable {timer : AlarmTimer} {tree : BinaryTree AlarmTimer}

/-- Whatever the tree: a timer with the greatest id goes behind all that are not later. -/
theorem insert_newest (h : set.Pairwise Before) (hid : ∀ y ∈ set, y.id < timer.id) (ht : inorder tree = set) :
    ∃ a b, set = a ++ b ∧ insertUnique alarmTimerCompare timer tree = a ++ timer :: b ∧ (a ++ timer :: b).Pairwise Before := by
  obtain ⟨a, b, rfl, ha, hb⟩ := split_at h timer.trigger
  refine ⟨a, b, rfl, insertUnique_eq ht (fun y hy => ?_) (fun y hy => ?_) (fun y hy => ?_), ?_⟩
  · have := hid y (mem_append_left _ hy)
    have := ha y hy
    simp only [alarmTimerCompare]
    rw [if_neg (by omega)]
    simp only [decide_eq_false_iff_not]
    omega
  · rw [alarmTimerCompare, if_pos (hb y hy)]
  · have := hid y (mem_append_left _ hy)
    simp [alarmTimerCompare, this]
  · obtain ⟨hpa, hpb, hab⟩ := pairwise_append.mp h
    refine pairwise_append.mpr ⟨hpa, pairwise_cons.mpr ⟨fun y hy => Or.inl (hb y hy), hpb⟩, fun x hx y hy => ?_⟩
    rcases mem_cons.mp hy with rfl | hy
    · have := ha x hx
      have := hid x (mem_append_left _ hx)
      simp only [Before]
      omega
    · exact hab x hx y hy

/-! ## A signal -/

def fire (now : Nat) (timer : AlarmTimer) : AlarmTimer := if timer.trigger ≤ now then { timer with timeouted := true } else timer

@[simp] theorem fire_id (now : Nat) (timer : AlarmTimer) : (fire now timer).id = timer.id := by
  unfold fire; split <;> rfl

@[simp] theorem fire_trigger (now : Nat) (timer : AlarmTimer) : (fire now timer).trigger = timer.trigger := by
  unfold fire; split <;> rfl

theorem fire_timeouted (now : Nat) (timer : AlarmTimer) :
    (fire now timer).timeouted = true ↔ timer.timeouted = true ∨ timer.trigger ≤ now := by
  unfold fire
  split
  · next h => simp [h]
  · next h => simp [h]

def due (now : Nat) (timer : AlarmTimer) : Bool := timer.trigger ≤ now && !timer.timeouted

variable {now : Nat}

theorem mem_due : timer ∈ set.filter (due now) ↔ timer ∈ set ∧ timer.trigger ≤ now ∧ timer.timeouted = false := by
  simp [due]

/-- The loop may stop at the first timer that is not due, for the set is in order. -/
theorem dispatch_spec (h : set.Pairwise Before) (now : Nat) :
    (dispatch now set).set = set.map (fire now) ∧ (dispatch now set).ran = set.filter (due now) := by
  induction set with
  | nil => exact ⟨rfl, rfl⟩
  | cons timer rest ih =>
    obtain ⟨ht, hrest⟩ := pairwise_cons.mp h
    obtain ⟨hset, hran⟩ := ih hrest
    unfold dispatch
    split
    · next hlt =>
      have hlater : ∀ y ∈ timer :: rest, ¬y.trigger ≤ now := by
        intro y hy
        rcases mem_cons.mp hy with rfl | hy
        · exact not_le.mpr hlt
        · have := ht y hy
          simp only [Before] at this
          omega
      refine ⟨?_, ?_⟩
      · exact (map_id _).symm.trans (map_congr_left fun y hy => by simp [fire, hlater y hy])
      · exact (filter_eq_nil_iff.mpr fun y hy => by simp [due, hlater y hy]).symm
    · next hge =>
      have hle := not_lt.mp hge
      split
      · next hto =>
        have hsame : fire now timer = timer := by
          rw [fire, if_pos hle, ← hto]
        simp [hset, hran, hsame, due, hto]
      · next hto => simp [hset, hran, fire, due, hle, hto]

/-! ## What the lathe keeps -/

def ranIds (s : Lathe) : List Nat := s.handled.map (·.id)

/-- Timer `id` has been closed, after it was made. -/
def IsClosed (s : Lathe) (id : Nat) : Prop := ∃ c ∈ s.closed, c.id = id ∧ id < c.created

structure LatheOk (s : Lathe) : Prop where
  sorted : s.set.Pairwise Before
  made : ∀ timer ∈ s.set, s.created[timer.id]? = some timer.trigger
  ids : (s.set.map (·.id)).Nodup
  ran : ∀ timer ∈ s.set, timer.timeouted = true ↔ timer.id ∈ ranIds s
  /-- a timer leaves the set only when it has run or is closed -/
  kept : ∀ id < s.created.length, id ∉ ranIds s → ¬IsClosed s id → ∃ timer ∈ s.set, timer.id = id
  once : (ranIds s).Nodup
  due : ∀ h ∈ s.handled, ∃ trigger, s.created[h.id]? = some trigger ∧ trigger ≤ h.now
  closedAt : ∀ c ∈ s.closed, c.created ≤ s.created.length ∧ c.handled ≤ s.handled.length
  gone : ∀ c ∈ s.closed, c.id < c.created → ∀ timer ∈ s.set, timer.id ≠ c.id
  notAfter : ∀ c ∈ s.closed, c.id < c.created → c.id ∉ (s.handled.drop c.handled).map (·.id)

variable {triggerAt : Nat → Nat → Nat} {s s' : Lathe}

theorem LatheOk.id_lt (h : LatheOk s) (ht : timer ∈ s.set) : timer.id < s.created.length :=
  (List.getElem?_eq_some_iff.mp (h.made timer ht)).1

variable {id : Nat}

theorem LatheOk.ran_lt (h : LatheOk s) (hid : id ∈ ranIds s) : id < s.created.length := by
  obtain ⟨x, hx, rfl⟩ := mem_map.mp hid
  obtain ⟨trigger, ht, -⟩ := h.due x hx
  exact (List.getElem?_eq_some_iff.mp ht).1

theorem LatheOk.unique (h : LatheOk s) {a b : AlarmTimer} (ha : a ∈ s.set) (hb : b ∈ s.set) (he : a.id = b.id) : a = b :=
  inj_on_of_nodup_map h.ids ha hb he

theorem start_ok : LatheOk {} where
  sorted := .nil
  made := nofun
  ids := nodup_nil
  ran := nofun
  kept _ h := absurd h (Nat.not_lt_zero _)
  once := nodup_nil
  due := nofun
  closedAt := nofun
  gone := nofun
  notAfter := nofun

theorem mem_lazyDelete (h : timer ∈ set) (ht : timer.timeouted = false) : timer ∈ lazyDelete set := by
  rw [← takeWhile_append_dropWhile (p := (·.timeouted)) (l := set), mem_append] at h
  refine h.resolve_left fun hm => ?_
  have := mem_takeWhile_imp hm
  rw [ht] at this
  cases this

theorem create_ok (h : LatheOk s) (ht : inorder tree = lazyDelete s.set) (timeout whenSet : Nat)
    (itimer : Option ITimer) : LatheOk { s with
      set := insertUnique alarmTimerCompare (newTimer triggerAt s timeout whenSet) tree
      created := s.created ++ [triggerAt whenSet timeout], itimer } := by
  have hsub : (lazyDelete s.set).Sublist s.set := dropWhile_sublist _
  have hid : ∀ y ∈ lazyDelete s.set, y.id < (newTimer triggerAt s timeout whenSet).id := fun y hy => h.id_lt (hsub.subset hy)
  obtain ⟨a, b, hab, hins, hsorted⟩ := insert_newest (h.sorted.sublist hsub) hid ht
  have hmem : ∀ y, y ∈ a ++ newTimer triggerAt s timeout whenSet :: b ↔ y = newTimer triggerAt s timeout whenSet ∨ y ∈ lazyDelete s.set := by
    intro y
    rw [hab, mem_append, mem_append, mem_cons]
    tauto
  have hperm : (a ++ newTimer triggerAt s timeout whenSet :: b).Perm (newTimer triggerAt s timeout whenSet :: lazyDelete s.set) := by
    rw [hab]
    exact perm_middle
  rw [hins]
  refine ⟨hsorted, fun y hy => ?_, ?_, fun y hy => ?_, fun id hlt hran hopen => ?_, h.once, fun x hx => ?_, fun c hc => ?_,
    fun c hc hlt y hy => ?_, h.notAfter⟩
  · rcases (hmem y).mp hy with rfl | hy
    · simp [newTimer]
    · rw [getElem?_append_left (h.id_lt (hsub.subset hy))]
      exact h.made y (hsub.subset hy)
  · rw [(hperm.map _).nodup_iff, map_cons, nodup_cons]
    refine ⟨fun hm => ?_, h.ids.sublist (hsub.map _)⟩
    obtain ⟨y, hy, he⟩ := mem_map.mp hm
    exact Nat.ne_of_lt (hid y hy) he
  · rcases (hmem y).mp hy with rfl | hy
    · refine iff_of_false Bool.false_ne_true fun hm => ?_
      exact Nat.lt_irrefl _ (h.ran_lt hm)
    · exact h.ran y (hsub.subset hy)
  · rcases Nat.lt_succ_iff_lt_or_eq.mp (by simpa using hlt) with hlt | rfl
    · obtain ⟨y, hy, rfl⟩ := h.kept id hlt hran hopen
      have hnot : y.timeouted = false := Bool.eq_false_of_not_eq_true fun hto => hran ((h.ran y hy).mp hto)
      exact ⟨y, (hmem y).mpr (Or.inr (mem_lazyDelete hy hnot)), rfl⟩
    · exact ⟨_, (hmem _).mpr (Or.inl rfl), rfl⟩
  · obtain ⟨trigger, htr, hle⟩ := h.due x hx
    exact ⟨trigger, getElem?_append_left (List.getElem?_eq_some_iff.mp htr).1 ▸ htr, hle⟩
  · obtain ⟨hcr, hha⟩ := h.closedAt c hc
    exact ⟨by simpa using Nat.le_succ_of_le hcr, hha⟩
  · rcases (hmem y).mp hy with rfl | hy
    · exact Nat.ne_of_gt (Nat.lt_of_lt_of_le hlt (h.closedAt c hc).1)
    · exact h.gone c hc hlt y (hsub.subset hy)

theorem erase_id (h : (set.map (·.id)).Nodup) (ht : timer ∈ set.eraseP (·.id = id)) : timer.id ≠ id := by
  induction set with
  | nil => cases ht
  | cons x set ih =>
    obtain ⟨hx, hset⟩ := nodup_cons.mp h
    by_cases hid : x.id = id
    · rw [eraseP_cons_of_pos (by simpa using hid)] at ht
      intro he
      exact hx (mem_map.mpr ⟨timer, ht, he.trans hid.symm⟩)
    · rw [eraseP_cons_of_neg (by simpa using hid)] at ht
      rcases mem_cons.mp ht with rfl | ht
      · exact hid
      · exact ih hset ht

theorem close_ok (h : LatheOk s) (id : Nat) (itimer : Option ITimer) : LatheOk { s with
    set := s.set.eraseP (·.id = id), itimer
    closed := s.closed ++ [{ id, created := s.created.length, handled := s.handled.length }] } := by
  have hsub : (s.set.eraseP (·.id = id)).Sublist s.set := eraseP_sublist
  refine ⟨h.sorted.sublist hsub, fun y hy => h.made y (hsub.subset hy), h.ids.sublist (hsub.map _), fun y hy => h.ran y (hsub.subset hy),
    fun k hlt hran hopen => ?_, h.once, h.due, fun c hc => ?_, fun c hc hlt y hy => ?_, fun c hc hlt => ?_⟩
  · have hold : ¬IsClosed s k := fun ⟨c, hc, he⟩ => hopen ⟨c, mem_append_left _ hc, he⟩
    obtain ⟨y, hy, rfl⟩ := h.kept k hlt hran hold
    have hne : y.id ≠ id := by
      rintro rfl
      exact hopen ⟨_, mem_append_right _ (mem_singleton_self _), rfl, hlt⟩
    exact ⟨y, (mem_eraseP_of_neg (by simpa using hne)).mpr hy, rfl⟩
  · rcases mem_append.mp hc with hc | hc
    · exact h.closedAt c hc
    · rw [mem_singleton.mp hc]
      exact ⟨Nat.le_refl _, Nat.le_refl _⟩
  · rcases mem_append.mp hc with hc | hc
    · exact h.gone c hc hlt y (hsub.subset hy)
    · rw [mem_singleton.mp hc]
      exact erase_id h.ids hy
  · rcases mem_append.mp hc with hc | hc
    · exact h.notAfter c hc hlt
    · rw [mem_singleton.mp hc]
      simp

def handledAt (now : Nat) (set : List AlarmTimer) : List Handled := (set.filter (due now)).map fun timer => { id := timer.id, now }

theorem mem_handledAt {k : Nat} :
    k ∈ (handledAt now set).map (·.id) ↔ ∃ y ∈ set, y.trigger ≤ now ∧ y.timeouted = false ∧ y.id = k := by
  simp [handledAt, due, and_assoc]

theorem signal_ran (h : LatheOk s) (now : Nat) {x : AlarmTimer} (hx : x ∈ s.set) :
    (fire now x).timeouted = true ↔ x.id ∈ ranIds s ∨ x.id ∈ (handledAt now s.set).map (·.id) := by
  rw [fire_timeouted, mem_handledAt]
  constructor
  · rintro (hto | hle)
    · exact Or.inl ((h.ran x hx).mp hto)
    · cases hto : x.timeouted with
      | true => exact Or.inl ((h.ran x hx).mp hto)
      | false => exact Or.inr ⟨x, hx, hle, hto, rfl⟩
  · rintro (hm | ⟨y, hy, hle, -, he⟩)
    · exact Or.inl ((h.ran x hx).mpr hm)
    · exact Or.inr (h.unique hy hx he ▸ hle)

theorem signal_once (h : LatheOk s) (now : Nat) : (ranIds s ++ (handledAt now s.set).map (·.id)).Nodup := by
  have hids : (handledAt now s.set).map (·.id) = (s.set.filter (due now)).map (·.id) := by simp [handledAt, Function.comp_def]
  refine nodup_append.mpr ⟨h.once, hids ▸ h.ids.sublist (filter_sublist.map _), fun a ha b hb he => ?_⟩
  obtain ⟨y, hy, -, hnot, rfl⟩ := mem_handledAt.mp hb
  rw [(h.ran y hy).mpr (he ▸ ha)] at hnot
  cases hnot

theorem signal_ok (h : LatheOk s) (now : Nat) (itimer : Option ITimer) : LatheOk { s with
    set := (dispatch now s.set).set, itimer
    handled := s.handled ++ (dispatch now s.set).ran.map fun timer => { id := timer.id, now } } := by
  obtain ⟨hset, hran⟩ := dispatch_spec h.sorted now
  rw [hset, hran]
  have hids : (s.handled ++ handledAt now s.set).map (·.id) = ranIds s ++ (handledAt now s.set).map (·.id) := map_append
  refine ⟨?_, fun y hy => ?_, ?_, fun y hy => ?_, fun k hlt hnot hopen => ?_, ?_, ?_, fun c hc => ?_,
    fun c hc hlt y hy => ?_, fun c hc hlt => ?_⟩
  · refine pairwise_map.mpr (h.sorted.imp fun hb => ?_)
    simpa [Before] using hb
  · obtain ⟨x, hx, rfl⟩ := mem_map.mp hy
    simpa using h.made x hx
  · have hsame : (s.set.map (fire now)).map (·.id) = s.set.map (·.id) := by simp [Function.comp_def]
    exact hsame ▸ h.ids
  · obtain ⟨x, hx, rfl⟩ := mem_map.mp hy
    show _ ↔ _ ∈ (s.handled ++ handledAt now s.set).map (·.id)
    rw [signal_ran h now hx, fire_id, hids, mem_append]
  · have hnot : k ∉ (s.handled ++ handledAt now s.set).map (·.id) := hnot
    rw [hids, mem_append, not_or] at hnot
    obtain ⟨x, hx, rfl⟩ := h.kept k hlt hnot.1 hopen
    exact ⟨fire now x, mem_map_of_mem hx, fire_id now x⟩
  · show ((s.handled ++ handledAt now s.set).map (·.id)).Nodup
    rw [hids]
    exact signal_once h now
  · refine forall_mem_append.mpr ⟨h.due, fun x hx => ?_⟩
    obtain ⟨y, hy, rfl⟩ := mem_map.mp hx
    obtain ⟨hm, hle, -⟩ := mem_due.mp hy
    exact ⟨y.trigger, h.made y hm, hle⟩
  · obtain ⟨hcr, hha⟩ := h.closedAt c hc
    exact ⟨hcr, by simpa using Nat.le_add_right_of_le hha⟩
  · obtain ⟨x, hx, rfl⟩ := mem_map.mp hy
    simpa using h.gone c hc hlt x hx
  · rw [drop_append_of_le_length (h.closedAt c hc).2, map_append, mem_append]
    rintro (hm | hm)
    · exact h.notAfter c hc hlt hm
    · obtain ⟨y, hy, -, -, he⟩ := mem_handledAt.mp hm
      exact h.gone c hc hlt y hy he

variable {e : Ev}

theorem step_ok (h : LatheOk s) (hs : step triggerAt s e = some s') : LatheOk s' := by
  cases e with
  | createTimer timeout whenSet now tree =>
    simp only [step] at hs
    split at hs
    · next ht =>
      cases hs
      exact create_ok h ht timeout whenSet _
    · cases hs
  | close id now =>
    cases hs
    exact close_ok h id _
  | signal now =>
    cases hs
    exact signal_ok h now _

/-! ## What a step does to the set -/

theorem createTimer_spec (h : LatheOk s) {timeout whenSet : Nat}
    (hs : step triggerAt s (.createTimer timeout whenSet now tree) = some s') :
    s'.handled = s.handled ∧ s'.created.length = s.created.length + 1 ∧ ∀ timer ∈ s'.set, timer ∈ s.set ∨ timer.id = s.created.length := by
  simp only [step] at hs
  split at hs
  · next ht =>
    cases hs
    have hsub : (lazyDelete s.set).Sublist s.set := dropWhile_sublist _
    have hid : ∀ y ∈ lazyDelete s.set, y.id < (newTimer triggerAt s timeout whenSet).id := fun y hy => h.id_lt (hsub.subset hy)
    obtain ⟨a, b, hab, hins, -⟩ := insert_newest (h.sorted.sublist hsub) hid ht
    refine ⟨rfl, length_append, fun timer hm => ?_⟩
    simp only [hins, mem_append, mem_cons] at hm
    rcases hm with hm | rfl | hm
    · exact Or.inl (hsub.subset (hab ▸ mem_append_left _ hm))
    · exact Or.inr rfl
    · exact Or.inl (hsub.subset (hab ▸ mem_append_right _ hm))
  · cases hs

theorem close_spec (h : LatheOk s) (hs : step triggerAt s (.close id now) = some s') :
    s'.handled = s.handled ∧ s'.created = s.created ∧ ∀ timer ∈ s'.set, timer ∈ s.set ∧ timer.id ≠ id := by
  cases hs
  exact ⟨rfl, rfl, fun timer ht => ⟨eraseP_sublist.subset ht, erase_id h.ids ht⟩⟩

theorem signal_spec (h : LatheOk s) (hs : step triggerAt s (.signal now) = some s') : s'.created = s.created ∧
      (∀ id, id ∈ ranIds s' ↔ id ∈ ranIds s ∨ ∃ timer ∈ s.set, timer.trigger ≤ now ∧ timer.timeouted = false ∧ timer.id = id) ∧
      ∀ timer ∈ s'.set, timer.timeouted = false → timer ∈ s.set := by
  cases hs
  obtain ⟨hset, hran⟩ := dispatch_spec h.sorted now
  refine ⟨rfl, fun id => ?_, fun timer ht hto => ?_⟩
  · simp only [ranIds, hran, map_append, mem_append]
    exact or_congr_right mem_handledAt
  · rw [hset] at ht
    obtain ⟨x, hx, rfl⟩ := mem_map.mp ht
    have hsame : fire now x = x := by
      unfold fire at hto ⊢
      split at hto
      · cases hto
      · next hlate => rw [if_neg hlate]
    rw [hsame]
    exact hx

/-! ## Handlers -/

/-- In every state: the order of the set, and which handlers have run. -/
structure Fires (s : Lathe) : Prop where
  sorted : s.set.Pairwise Before
  once : (ranIds s).Nodup
  notBefore : ∀ h ∈ s.handled, ∃ trigger, s.created[h.id]? = some trigger ∧ trigger ≤ h.now
  notAfterClose : ∀ c ∈ s.closed, c.id < c.created → c.id ∉ (s.handled.drop c.handled).map (·.id)

/-- Whatever the clock says and however trigger times are made: a signal runs the handlers of
    all timers that are due, not closed, and have not run. -/
theorem alarm_timers_fire {es : List Ev} {t : Lathe} (hr : run (step triggerAt) {} es = some t) :
    Fires t ∧ ∀ now t', step triggerAt t (.signal now) = some t' → ∀ id trigger, t.created[id]? = some trigger → trigger ≤ now →
      ¬IsClosed t id → id ∉ ranIds t → id ∈ ranIds t' := by
  have hok : LatheOk t :=
    run_inv (Q := fun _ _ => True) (fun s e s' h _ hs => step_ok h hs) start_ok (along_true _ _) hr
  refine ⟨⟨hok.sorted, hok.once, hok.due, hok.notAfter⟩, fun now t' hs id trigger hid hle hopen hnot => ?_⟩
  obtain ⟨timer, ht, rfl⟩ := hok.kept id (List.getElem?_eq_some_iff.mp hid).1 hnot hopen
  obtain rfl : timer.trigger = trigger := Option.some.inj ((hok.made timer ht).symm.trans hid)
  have hto : timer.timeouted = false := Bool.eq_false_of_not_eq_true fun h => hnot ((hok.ran timer ht).mp h)
  cases hs
  simp only [ranIds, (dispatch_spec hok.sorted now).2, map_append, mem_append, map_map]
  exact Or.inr (mem_map.mpr ⟨timer, mem_due.mpr ⟨ht, hle, hto⟩, rfl⟩)

/-- Two timers of the same trigger time, one that is closed, and a signal. -/
def firingRun : List Ev :=
  [.createTimer 2 0 10 .nil, .createTimer 1 1000000 1000010 (.node ⟨0, 2000000, false⟩ .nil .nil),
    .createTimer 1 1000020 1000030 (.node ⟨0, 2000000, false⟩ .nil (.node ⟨1, 2000000, false⟩ .nil .nil)),
    .close 0 1500000, .signal 2000005]

theorem alarm_timers_fire_firing :
    ∃ t, run (step exactTrigger) {} firingRun = some t ∧ Fires t ∧ t.set = [⟨1, 2000000, true⟩, ⟨2, 2000020, false⟩] ∧ ranIds t = [1] := by
  obtain ⟨t, hr, hset, hran⟩ : ∃ t, run (step exactTrigger) {} firingRun = some t ∧
      t.set = [⟨1, 2000000, true⟩, ⟨2, 2000020, false⟩] ∧ ranIds t = [1] := ⟨_, rfl, rfl, rfl⟩
  exact ⟨t, hr, (alarm_timers_fire hr).1, hset, hran⟩

/-! ## The interval timer -/

/-- A timer in the set has not fired. -/
def Waiting (s : Lathe) : Prop := ∃ timer ∈ s.set, timer.timeouted = false

/-- As long as a timer waits, the last call of `setitimer` did not disarm. -/
def Armed (s : Lathe) : Prop := Waiting s → ∃ value, s.itimer = some value ∧ value ≠ .zero

theorem setNextITimer_zero {trigger base : Nat} : setNextITimer trigger base = .zero ↔ base ≤ trigger ∧ trigger < base + 1000 := by
  unfold setNextITimer ITimer.zero
  split
  · simp only [ITimer.mk.injEq]
    omega
  · simp only [ITimer.mk.injEq]
    omega

/-- If the step arms for a timer while one waits, the time is past, or a microsecond ahead. -/
def FarEnough (triggerAt : Nat → Nat → Nat) (s : Lathe) (e : Ev) : Prop :=
  ∀ s', step triggerAt s e = some s' → Waiting s' → ∀ trigger base, nextITimer triggerAt s e = some (trigger, base) →
    trigger < base ∨ base + 1000 ≤ trigger

theorem dispatch_all (h : (dispatch now set).next = none) :
    ∀ timer ∈ (dispatch now set).set, timer.timeouted = true := by
  induction set with
  | nil => exact nofun
  | cons x rest ih =>
    unfold dispatch at h ⊢
    split at h
    · cases h
    · next hge =>
      rw [if_neg hge]
      split at h
      · next hto =>
        rw [if_pos hto]
        exact forall_mem_cons.mpr ⟨hto, ih h⟩
      · next hto =>
        rw [if_neg hto]
        exact forall_mem_cons.mpr ⟨rfl, ih h⟩

theorem step_itimer (hs : step triggerAt s e = some s') :
    (∃ trigger base, nextITimer triggerAt s e = some (trigger, base) ∧ s'.itimer = some (setNextITimer trigger base)) ∨
      nextITimer triggerAt s e = none ∧ ¬Waiting s' := by
  cases e with
  | createTimer timeout whenSet now tree =>
    left
    obtain ⟨x, rest, hcons⟩ := exists_cons_of_ne_nil
      (insertUnique_ne_nil alarmTimerCompare (newTimer triggerAt s timeout whenSet) tree)
    simp only [step] at hs
    split at hs
    · cases hs
      exact ⟨x.trigger, now, by simp [nextITimer, hcons], by simp [nextITimer, hcons]⟩
    · cases hs
  | close id now =>
    cases hs
    cases hset : s.set.eraseP (·.id = id) with
    | nil => exact Or.inr ⟨by simp [nextITimer, hset], by simp [Waiting]⟩
    | cons x rest => exact Or.inl ⟨x.trigger, now, by simp [nextITimer, hset], by simp [nextITimer, hset]⟩
  | signal now =>
    cases hs
    cases hnext : (dispatch now s.set).next with
    | none =>
      refine Or.inr ⟨by simp [nextITimer, hnext], fun ⟨timer, ht, hto⟩ => ?_⟩
      rw [dispatch_all hnext timer ht] at hto
      cases hto
    | some trigger => exact Or.inl ⟨trigger, now, by simp [nextITimer, hnext], by simp [nextITimer, hnext]⟩

theorem armed_step (hs : step triggerAt s e = some s') : Armed s' ↔ FarEnough triggerAt s e := by
  rcases step_itimer hs with ⟨trigger, base, hnext, hset⟩ | ⟨hnone, hidle⟩
  · constructor
    · intro harmed s1 hs1 hwait trigger' base' hnext'
      cases hs.symm.trans hs1
      cases hnext.symm.trans hnext'
      obtain ⟨value, hv, hne⟩ := harmed hwait
      cases hset.symm.trans hv
      rw [Ne, setNextITimer_zero] at hne
      omega
    · intro hfar hwait
      refine ⟨_, hset, fun hzero => ?_⟩
      have := hfar s' hs hwait trigger base hnext
      rw [setNextITimer_zero] at hzero
      omega
  · refine iff_of_true (fun hwait => absurd hwait hidle) fun s1 hs1 hwait => ?_
    cases hs.symm.trans hs1
    exact absurd hwait hidle

/-- A timer that waits has the interval timer armed in all states of a run exactly if it is
    never armed, with a timer waiting, for a time less than a microsecond ahead. -/
theorem armed_iff {es : List Ev} {t : Lathe} (hr : run (step triggerAt) {} es = some t) :
    (∀ u, Reached (step triggerAt) {} es u → Armed u) ↔ Along (step triggerAt) (FarEnough triggerAt) {} es := by
  refine reached_iff_along (I := fun _ => True) (A := fun _ _ => True) (fun _ _ _ _ _ _ => trivial)
    (fun s e s' _ _ _ hs => armed_step hs) trivial (fun hwait => ?_) (along_true _ _) hr
  obtain ⟨timer, ht, -⟩ := hwait
  cases ht

def waitingRun : List Ev := [.createTimer 1 0 400 .nil, .signal 1000007]

theorem armed_iff_waiting :
    (run (step exactTrigger) {} waitingRun).isSome = true ∧ ∀ u, Reached (step exactTrigger) {} waitingRun u → Armed u := by
  obtain ⟨t, hr⟩ : ∃ t, run (step exactTrigger) {} waitingRun = some t := ⟨_, rfl⟩
  refine ⟨by rw [hr]; rfl, (armed_iff hr).mpr ?_⟩
  refine along_cons.mpr ⟨fun s' hs hwait trigger base hnext => ?_, fun s' hs => ?_⟩
  · cases hnext
    exact Or.inr (by decide)
  · cases hs
    refine along_cons.mpr ⟨fun s' hs hwait trigger base hnext => ?_, fun _ _ => trivial⟩
    cases hnext

/-- Two timers of one millisecond, half a microsecond apart: the signal for the first disarms. -/
def lostRun : List Ev :=
  [.createTimer 1 0 0 .nil, .createTimer 1 500 600 (.node ⟨0, 1000000, false⟩ .nil .nil), .signal 1000000]

theorem alarm_lost :
    ∃ t, run (step exactTrigger) {} lostRun = some t ∧ ⟨1, 1000500, false⟩ ∈ t.set ∧ t.itimer = some .zero ∧ ¬Armed t := by
  obtain ⟨t, hr, hset, hzero⟩ : ∃ t, run (step exactTrigger) {} lostRun = some t ∧
      t.set = [⟨0, 1000000, true⟩, ⟨1, 1000500, false⟩] ∧ t.itimer = some .zero := ⟨_, rfl, rfl, rfl⟩
  have hmem : ⟨1, 1000500, false⟩ ∈ t.set := by simp [hset]
  refine ⟨t, hr, hmem, hzero, fun harmed => ?_⟩
  obtain ⟨value, hv, hne⟩ := harmed ⟨_, hmem, rfl⟩
  exact hne (Option.some.inj (hv.symm.trans hzero))

end Aworker.Alarm
