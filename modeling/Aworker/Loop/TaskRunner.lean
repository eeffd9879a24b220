/-
  Aworker.Loop.TaskRunner — the tasks V8 posts to the main thread (src/aworker_platform.cc:
  `ForegroundTaskRunner`).

  Any thread posts: it puts its task into a queue under the lock and then sends `async_`. On
  the loop's thread `RunTasks` drains the queues: it reads the clock, takes all immediate
  tasks and the delayed ones that are due under the lock, runs them outside it, reads the
  clock again, and arms the timer for the earliest delayed task that is left. Tasks that run
  post too. A look under the lock and what follows it on the loop's thread are one step:
  whoever posts in between sends `async_` itself.

  `uint64_t` arithmetic wraps. The timeout is a difference to the second reading of the
  clock, while the tasks that stay are later than the first one only.

  (1) `timely_iff`, and `task_parked`.
  (2) `tasks_served`: no posted task is lost or run twice; immediate tasks run in order, no
      delayed one runs early, and a queued immediate task has a wake-up.
-/

import Mathlib
import Aworker.Lib.PriorityQueue
import Aworker.Lib.Run

namespace Aworker.TaskRunner

open Aworker.Lib List

/-! ## The runner -/

/-- `now_in_ms`, at a value of `uv_hrtime`. -/
def nowInMs (hrtime : UInt64) : UInt64 := hrtime / 1000 / 1000

/-- A task is known by its number; `since` is how many drains had taken their tasks when it
    was posted. -/
structure PlatformTask where
  id : Nat
  since : Nat

structure PlatformDelayedTask extends PlatformTask where
  deadline : UInt64

/-- `PlatformDelayedTaskCompare` -/
def PlatformDelayedTask.key (task : PlatformDelayedTask) : Nat := task.deadline.toNat

variable (Q : PriorityQueue PlatformDelayedTask PlatformDelayedTask.key)

/-- Where the loop's thread is; `timed` in `RunTasks`, and not where `DrainTasks` is called on its own. -/
inductive Phase where
  | outside
  | called (timed : Bool)
  /-- `DrainTasks` has read the clock -/
  | read (timed : Bool) (now : UInt64)
  | draining (timed : Bool) (now : UInt64) (tasks : List PlatformTask) (delayed : List PlatformDelayedTask)
  /-- back in `RunTasks` -/
  | drained
  /-- `RunTasks` has read the clock -/
  | rearming (now : UInt64)

/-- A task that was run, by which drain, and that drain's reading of the clock. -/
structure Ran (T : Type) where
  task : T
  drain : Nat
  now : UInt64

/-- How `RunTasks` has returned: its reading of the clock, the earliest deadline, the timer. -/
structure Returned where
  now : UInt64
  earliest : Option UInt64
  timer : Option UInt64

structure Runner where
  tasks : List PlatformTask := []
  delayed : Q.Queue := Q.empty
  /-- the timeout `timer_` is armed with -/
  timer : Option UInt64 := none
  /-- `async_` was sent and its callback has not been called since -/
  pending : Bool := false
  /-- posts that have not come to `uv_async_send` -/
  unsent : List Nat := []
  phase : Phase := .outside
  drains : Nat := 0
  posts : Nat := 0
  posted : List PlatformTask := []
  postedDelayed : List PlatformDelayedTask := []
  ran : List (Ran PlatformTask) := []
  ranDelayed : List (Ran PlatformDelayedTask) := []
  returns : List Returned := []

inductive Ev where
  | postTask
  /-- `delay` in milliseconds, rounded; the clock is read before the lock is taken -/
  | postDelayedTask (hrtime : UInt64) (delay : Int)
  | send (id : Nat)
  | async
  | timer
  | drainTasks
  | readClock (hrtime : UInt64)
  | takeTasks
  /-- the next task of the batch, or the end of it -/
  | runNext
  | rearm

/-- What `RunTasks` puts into `next_timeout`. -/
def nextTimeout (now : UInt64) : Option PlatformDelayedTask → UInt64
  | none => 0
  | some task => max (task.deadline - now) 1

def rearm (s : Runner Q) (now : UInt64) : Runner Q :=
  let timeout := nextTimeout now (Q.top s.delayed)
  let timer := if timeout = 0 then none else some timeout
  { s with timer, phase := .outside, returns := s.returns ++ [{ now, timer, earliest := (Q.top s.delayed).map (·.deadline) }] }

def takeTasks (s : Runner Q) (timed : Bool) (now : UInt64) : Runner Q :=
  let due := Q.takeDue now.toNat s.delayed
  { s with tasks := [], delayed := due.2, phase := .draining timed now s.tasks due.1, drains := s.drains + 1 }

def runNext (s : Runner Q) (timed : Bool) (now : UInt64) : List PlatformTask → List PlatformDelayedTask → Runner Q
  | task :: tasks, delayed =>
    { s with phase := .draining timed now tasks delayed, ran := s.ran ++ [{ task, now, drain := s.drains }] }
  | [], task :: delayed =>
    { s with phase := .draining timed now [] delayed, ranDelayed := s.ranDelayed ++ [{ task, now, drain := s.drains }] }
  | [], [] => { s with phase := if timed then .drained else .outside }

def step (s : Runner Q) : Ev → Option (Runner Q)
  | .postTask =>
    let task : PlatformTask := { id := s.posts, since := s.drains }
    some { s with tasks := s.tasks ++ [task], unsent := s.posts :: s.unsent, posts := s.posts + 1, posted := s.posted ++ [task] }
  | .postDelayedTask hrtime delay =>
    let task : PlatformDelayedTask := { id := s.posts, since := s.drains, deadline := nowInMs hrtime + UInt64.ofInt delay }
    some { s with
      delayed := Q.push s.delayed task, unsent := s.posts :: s.unsent, posts := s.posts + 1, postedDelayed := s.postedDelayed ++ [task] }
  | .send id => if id ∈ s.unsent then some { s with unsent := s.unsent.erase id, pending := true } else none
  | .async =>
    match s.phase, s.pending with
    | .outside, true => some { s with pending := false, phase := .called true }
    | _, _ => none
  | .timer =>
    match s.phase, s.timer with
    | .outside, some _ => some { s with timer := none, phase := .called true }
    | _, _ => none
  | .drainTasks =>
    match s.phase with
    | .outside => some { s with phase := .called false }
    | _ => none
  | .readClock hrtime =>
    match s.phase with
    | .called timed => some { s with phase := .read timed (nowInMs hrtime) }
    | .drained => some { s with phase := .rearming (nowInMs hrtime) }
    | _ => none
  | .takeTasks =>
    match s.phase with
    | .read timed now => some (takeTasks Q s timed now)
    | _ => none
  | .runNext =>
    match s.phase with
    | .draining timed now tasks delayed => some (runNext Q s timed now tasks delayed)
    | _ => none
  | .rearm =>
    match s.phase with
    | .rearming now => some (rearm Q s now)
    | _ => none

/-! ## The timer -/

/-- If delayed tasks are left, the timer is armed for the earliest of them, or for the next
    millisecond if that one is due. -/
def Returned.Timely (r : Returned) : Prop :=
  ∀ d, r.earliest = some d → ∃ timeout, r.timer = some timeout ∧ timeout.toNat ≤ max (d.toNat - r.now.toNat) 1

/-- `RunTasks` does not look at the queue after the earliest deadline has passed. -/
def NotPast (s : Runner Q) : Ev → Prop
  | .rearm => ∀ now, s.phase = .rearming now → ∀ task, Q.top s.delayed = some task → now ≤ task.deadline
  | _ => True

/-- Readings of the clock that are waiting to be used come from `uv_hrtime`. -/
def Phase.FromClock : Phase → Prop
  | .rearming now => ∃ hrtime, now = nowInMs hrtime
  | _ => True

theorem nowInMs_lt (hrtime : UInt64) : (nowInMs hrtime).toNat < 2 ^ 45 := by
  have h := hrtime.toNat_lt
  simp only [nowInMs, UInt64.toNat_div]
  have h1 : (1000 : UInt64).toNat = 1000 := rfl
  rw [h1]
  omega

theorem nextTimeout_toNat (now : UInt64) (task : PlatformDelayedTask) :
    (nextTimeout now (some task)).toNat = max ((2 ^ 64 - now.toNat + task.deadline.toNat) % 2 ^ 64) 1 := by
  have hmax : nextTimeout now (some task) = if task.deadline - now ≤ 1 then 1 else task.deadline - now := rfl
  rw [hmax, ← UInt64.toNat_sub]
  have h1 : (1 : UInt64).toNat = 1 := rfl
  split
  · next h => rw [UInt64.le_iff_toNat_le] at h; omega
  · next h => rw [UInt64.le_iff_toNat_le] at h; omega

variable {now : UInt64}

theorem timeout_le_iff (hrtime : UInt64) (hnow : now = nowInMs hrtime) (task : PlatformDelayedTask) :
    (nextTimeout now (some task)).toNat ≤ max (task.deadline.toNat - now.toNat) 1 ↔ now ≤ task.deadline := by
  have hlt := nowInMs_lt hrtime
  have hd := task.deadline.toNat_lt
  rw [← hnow] at hlt
  rw [nextTimeout_toNat, UInt64.le_iff_toNat_le]
  omega

variable {Q} {s s' : Runner Q} {e : Ev}

theorem rearm_timely {hrtime : UInt64} (hnow : now = nowInMs hrtime) (hs : ∀ r ∈ s.returns, r.Timely) :
    (∀ r ∈ (rearm Q s now).returns, r.Timely) ↔ ∀ task, Q.top s.delayed = some task → now ≤ task.deadline := by
  have hreturns : (rearm Q s now).returns = s.returns ++
      [{ now, earliest := (Q.top s.delayed).map (·.deadline), timer := (rearm Q s now).timer }] := rfl
  rw [hreturns]
  have hlast : (∀ r ∈ s.returns ++ [{ now, earliest := (Q.top s.delayed).map (·.deadline), timer := (rearm Q s now).timer }], r.Timely) ↔
      ({ now, earliest := (Q.top s.delayed).map (·.deadline), timer := (rearm Q s now).timer } : Returned).Timely := by
    simp only [mem_append, mem_singleton]
    exact ⟨fun h => h _ (Or.inr rfl), fun h r hr => hr.elim (hs r) fun he => he ▸ h⟩
  rw [hlast]
  cases htop : Q.top s.delayed with
  | none => simp [Returned.Timely]
  | some task =>
    have hne : nextTimeout now (some task) ≠ 0 := by
      intro h0
      have := nextTimeout_toNat now task
      rw [h0] at this
      have h0 : (0 : UInt64).toNat = 0 := rfl
      omega
    have htimer : (rearm Q s now).timer = some (nextTimeout now (some task)) := by simp [rearm, htop, hne]
    simp only [Returned.Timely, htimer, Option.map_some, Option.some.injEq, forall_eq', exists_eq_left']
    exact timeout_le_iff hrtime hnow task

/-- What the loop's thread does between two looks under the lock changes its phase, the timer
    and the wake-up only. -/
inductive Moves (s : Runner Q) : Ev → Runner Q → Prop
  | postTask : Moves s .postTask { s with
      tasks := s.tasks ++ [{ id := s.posts, since := s.drains }], unsent := s.posts :: s.unsent, posts := s.posts + 1
      posted := s.posted ++ [{ id := s.posts, since := s.drains }] }
  | postDelayedTask (hrtime : UInt64) (delay : Int) (task : PlatformDelayedTask) : task.id = s.posts → task.since = s.drains →
      Moves s (.postDelayedTask hrtime delay) { s with
        delayed := Q.push s.delayed task, unsent := s.posts :: s.unsent, posts := s.posts + 1
        postedDelayed := s.postedDelayed ++ [task] }
  | send (id : Nat) : id ∈ s.unsent → Moves s (.send id) { s with unsent := s.unsent.erase id, pending := true }
  | async : s.phase = .outside → Moves s .async { s with pending := false, phase := .called true }
  | timer : s.phase = .outside → Moves s .timer { s with timer := none, phase := .called true }
  | drainTasks : s.phase = .outside → Moves s .drainTasks { s with phase := .called false }
  | readClock (hrtime : UInt64) (timed : Bool) : s.phase = .called timed →
      Moves s (.readClock hrtime) { s with phase := .read timed (nowInMs hrtime) }
  | readAgain (hrtime : UInt64) : s.phase = .drained → Moves s (.readClock hrtime) { s with phase := .rearming (nowInMs hrtime) }
  | takeTasks (timed : Bool) (now : UInt64) : s.phase = .read timed now → Moves s .takeTasks (takeTasks Q s timed now)
  | runNext (timed : Bool) (now : UInt64) (tasks : List PlatformTask) (delayed : List PlatformDelayedTask) :
      s.phase = .draining timed now tasks delayed → Moves s .runNext (runNext Q s timed now tasks delayed)
  | rearm (now : UInt64) : s.phase = .rearming now → Moves s .rearm (rearm Q s now)

theorem step_moves (h : step Q s e = some s') : Moves s e s' := by
  cases e with simp only [step] at h
  | postTask => cases h; exact .postTask
  | postDelayedTask hrtime delay => cases h; exact .postDelayedTask hrtime delay _ rfl rfl
  | send id =>
    split at h
    · next hi => cases h; exact .send id hi
    · cases h
  | async =>
    split at h
    · next hp _ => cases h; exact .async hp
    · cases h
  | timer =>
    split at h
    · next hp _ => cases h; exact .timer hp
    · cases h
  | drainTasks =>
    split at h
    · next hp => cases h; exact .drainTasks hp
    · cases h
  | readClock hrtime =>
    split at h
    · next hp => cases h; exact .readClock hrtime _ hp
    · next hp => cases h; exact .readAgain hrtime hp
    · cases h
  | takeTasks =>
    split at h
    · next hp => cases h; exact .takeTasks _ _ hp
    · cases h
  | runNext =>
    split at h
    · next hp => cases h; exact .runNext _ _ _ _ hp
    · cases h
  | rearm =>
    split at h
    · next hp => cases h; exact .rearm _ hp
    · cases h

theorem runNext_phase (s : Runner Q) (timed : Bool) (now : UInt64) (tasks : List PlatformTask) (delayed : List PlatformDelayedTask) :
    (runNext Q s timed now tasks delayed).phase.FromClock := by
  rcases tasks with _ | ⟨task, tasks⟩
  · rcases delayed with _ | ⟨task, delayed⟩
    · cases timed <;> trivial
    · trivial
  · trivial

theorem step_fromClock (h : s.phase.FromClock) (hs : step Q s e = some s') : s'.phase.FromClock := by
  cases step_moves hs with
  | postTask => exact h
  | postDelayedTask => exact h
  | send => exact h
  | readAgain hrtime => exact ⟨hrtime, rfl⟩
  | runNext => exact runNext_phase _ _ _ _ _
  | _ => trivial

/-- Only `rearm` returns from `RunTasks`. -/
theorem step_returns (hs : step Q s e = some s') (he : e ≠ .rearm) : s'.returns = s.returns := by
  cases step_moves hs with
  | runNext timed now tasks delayed => rcases tasks with _ | ⟨task, tasks⟩ <;> rcases delayed with _ | ⟨task, delayed⟩ <;> rfl
  | rearm => exact absurd rfl he
  | _ => rfl

theorem timely_step (h : s.phase.FromClock) (hp : ∀ r ∈ s.returns, r.Timely) (hs : step Q s e = some s') :
    (∀ r ∈ s'.returns, r.Timely) ↔ NotPast Q s e := by
  by_cases he : e = .rearm
  · subst he
    cases step_moves hs with
    | rearm now hphase =>
      rw [hphase] at h
      obtain ⟨hrtime, hnow⟩ := h
      rw [rearm_timely hnow hp]
      simp only [NotPast, hphase, Phase.rearming.injEq]
      exact ⟨fun h now' he => he ▸ h, fun h => h now rfl⟩
  · rw [step_returns hs he]
    refine iff_of_true hp ?_
    cases e with
    | rearm => exact absurd rfl he
    | _ => trivial

/-- From any queues: all along a run `RunTasks` leaves the timer armed in time, for its own
    reading of the clock, exactly if that reading never is past the earliest deadline. -/
theorem timely_iff {s t : Runner Q} (hphase : s.phase = .outside) (hreturns : s.returns = []) {es : List Ev}
    (hr : run (step Q) s es = some t) :
    (∀ u, Reached (step Q) s es u → ∀ r ∈ u.returns, r.Timely) ↔ Along (step Q) (NotPast Q) s es := by
  refine reached_iff_along (I := fun s => s.phase.FromClock) (A := fun _ _ => True) ?_ ?_ ?_ ?_ (along_true s es) hr
  · intro s e s' h _ hs
    exact step_fromClock h hs
  · intro s e s' h _ hp hs
    exact timely_step h hp hs
  · rw [hphase]; trivial
  · rw [hreturns]; nofun

/-- A delayed task that is due at 105 ms and a task that runs for some time. -/
def lateRun (after : UInt64) : List Ev :=
  [.postDelayedTask 100000000 5, .send 0, .postTask, .send 1, .async, .readClock 100000000, .takeTasks, .runNext, .runNext,
   .readClock after, .rearm]

theorem timely_early :
    ∃ t, run (step (sortedQueue PlatformDelayedTask.key)) {} (lateRun 103000000) = some t ∧ ∀ r ∈ t.returns, r.Timely := by
  refine ⟨_, rfl, ?_⟩
  refine (@timely_iff (sortedQueue PlatformDelayedTask.key) {} _ rfl rfl (lateRun 103000000) rfl).mpr ?_ _ ⟨_, prefix_rfl, rfl⟩
  refine ⟨trivial, trivial, trivial, trivial, trivial, trivial, trivial, trivial, trivial, trivial, ?_, trivial⟩
  rintro now ⟨⟩ task ⟨⟩
  decide

/-- The clock reads 100 ms before the task is run and 110 ms after it. -/
theorem task_parked :
    ∃ t, run (step (sortedQueue PlatformDelayedTask.key)) {} (lateRun 110000000) = some t ∧
      t.returns = [{ now := 110, earliest := some 105, timer := some 18446744073709551611 }] ∧ ∀ r ∈ t.returns, ¬ r.Timely := by
  refine ⟨_, rfl, rfl, ?_⟩
  intro r hr htimely
  obtain rfl := mem_singleton.mp hr
  obtain ⟨timeout, htimer, hle⟩ := htimely 105 rfl
  cases htimer
  revert hle
  decide

/-! ## The tasks -/

def Phase.tasks : Phase → List PlatformTask
  | .draining _ _ tasks _ => tasks
  | _ => []

def Phase.delayed : Phase → List PlatformDelayedTask
  | .draining _ _ _ delayed => delayed
  | _ => []

/-- A drain has been called that will take all immediate tasks there are. -/
def Phase.toTake : Phase → Bool
  | .called _ => true
  | .read _ _ => true
  | _ => false

structure Served (s : Runner Q) : Prop where
  /-- run, in the batch, or queued: in the order they were posted -/
  kept : s.ran.map Ran.task ++ s.phase.tasks ++ s.tasks = s.posted
  keptDelayed : (s.ranDelayed.map Ran.task ++ s.phase.delayed ++ Q.elems s.delayed).Perm s.postedDelayed
  distinct : (s.posted.map (·.id) ++ s.postedDelayed.map (·.id)).Nodup
  onTime : ∀ r ∈ s.ranDelayed, r.task.deadline ≤ r.now
  byDeadline : s.ranDelayed.Pairwise fun r r' => r.drain = r'.drain → r.task.deadline ≤ r'.task.deadline
  later : (∀ r ∈ s.ran, r.task.since < r.drain) ∧ ∀ r ∈ s.ranDelayed, r.task.since < r.drain
  awake : ∀ task ∈ s.tasks, task.id ∉ s.unsent → s.pending = true ∨ s.phase.toTake = true

/-- What a drain in progress owes to the tasks it has taken. -/
structure Batch (s : Runner Q) (now : UInt64) (tasks : List PlatformTask) (delayed : List PlatformDelayedTask) : Prop where
  tasksLater : ∀ task ∈ tasks, task.since < s.drains
  delayedLater : ∀ task ∈ delayed, task.since < s.drains
  due : ∀ task ∈ delayed, task.deadline ≤ now
  sorted : delayed.Pairwise fun a b => a.deadline ≤ b.deadline
  after : ∀ r ∈ s.ranDelayed, r.drain = s.drains → ∀ task ∈ delayed, r.task.deadline ≤ task.deadline

structure RunnerOk (s : Runner Q) : Prop extends Served s where
  batch : ∀ timed now tasks delayed, s.phase = .draining timed now tasks delayed → Batch s now tasks delayed
  sinceTasks : ∀ task ∈ s.tasks, task.since ≤ s.drains
  sinceDelayed : ∀ task ∈ Q.elems s.delayed, task.since ≤ s.drains
  drainLe : ∀ r ∈ s.ranDelayed, r.drain ≤ s.drains
  idLt : ∀ id ∈ s.posted.map (·.id) ++ s.postedDelayed.map (·.id), id < s.posts

theorem start_ok : RunnerOk ({} : Runner Q) := by
  refine ⟨⟨rfl, ?_, nodup_nil, nofun, .nil, ⟨nofun, nofun⟩, nofun⟩, nofun, nofun, ?_, nofun, nofun⟩
  · simp [Phase.delayed, Q.elems_empty]
  · simp [Q.elems_empty]

theorem postTask_ok (h : RunnerOk s) : RunnerOk { s with
    tasks := s.tasks ++ [{ id := s.posts, since := s.drains }], unsent := s.posts :: s.unsent, posts := s.posts + 1
    posted := s.posted ++ [{ id := s.posts, since := s.drains }] } := by
  have hnew : s.posts ∉ s.posted.map (·.id) ++ s.postedDelayed.map (·.id) := fun hm => Nat.lt_irrefl _ (h.idLt _ hm)
  have hids : ((s.posted ++ [({ id := s.posts, since := s.drains } : PlatformTask)]).map (·.id) ++ s.postedDelayed.map (·.id)).Perm
      (s.posts :: (s.posted.map (·.id) ++ s.postedDelayed.map (·.id))) := by
    simp only [map_append, map_cons, map_nil, append_assoc, singleton_append]
    exact perm_middle
  refine ⟨⟨?_, h.keptDelayed, hids.nodup_iff.mpr (nodup_cons.mpr ⟨hnew, h.distinct⟩), h.onTime, h.byDeadline, h.later, ?_⟩,
    ?_, ?_, h.sinceDelayed, h.drainLe, ?_⟩
  · simp only [← h.kept, append_assoc]
  · intro task htask hsent
    rcases mem_append.mp htask with ht | ht
    · exact h.awake task ht fun hm => hsent (mem_cons_of_mem _ hm)
    · rw [mem_singleton.mp ht] at hsent
      exact absurd mem_cons_self hsent
  · intro timed now tasks delayed hp
    have hb := h.batch timed now tasks delayed hp
    exact ⟨hb.tasksLater, hb.delayedLater, hb.due, hb.sorted, hb.after⟩
  · exact forall_mem_append.mpr ⟨h.sinceTasks, forall_mem_singleton.mpr (Nat.le_refl s.drains)⟩
  · intro id hid
    rcases mem_cons.mp (hids.subset hid) with rfl | hid
    · exact Nat.lt_succ_self _
    · exact Nat.lt_succ_of_lt (h.idLt id hid)

variable {task : PlatformDelayedTask}

theorem postDelayed_ok (h : RunnerOk s) (hid : task.id = s.posts) (hsince : task.since = s.drains) : RunnerOk { s with
      delayed := Q.push s.delayed task, unsent := s.posts :: s.unsent, posts := s.posts + 1
      postedDelayed := s.postedDelayed ++ [task] } := by
  have hnew : s.posts ∉ s.posted.map (·.id) ++ s.postedDelayed.map (·.id) := fun hm => Nat.lt_irrefl _ (h.idLt _ hm)
  have hids : (s.posted.map (·.id) ++ (s.postedDelayed ++ [task]).map (·.id)).Perm
      (s.posts :: (s.posted.map (·.id) ++ s.postedDelayed.map (·.id))) := by
    simp only [map_append, map_cons, map_nil, hid, ← append_assoc]
    exact perm_append_singleton _ _
  have hpush := Q.elems_push s.delayed task
  refine ⟨⟨h.kept, ?_, hids.nodup_iff.mpr (nodup_cons.mpr ⟨hnew, h.distinct⟩), h.onTime, h.byDeadline, h.later, ?_⟩,
    ?_, h.sinceTasks, ?_, h.drainLe, ?_⟩
  · refine (hpush.append_left _).trans ?_
    rw [← append_assoc]
    exact h.keptDelayed.append_right _
  · intro x hx hsent
    exact h.awake x hx fun hm => hsent (mem_cons_of_mem _ hm)
  · intro timed now tasks delayed hp
    have hb := h.batch timed now tasks delayed hp
    exact ⟨hb.tasksLater, hb.delayedLater, hb.due, hb.sorted, hb.after⟩
  · intro x hx
    rcases mem_append.mp (hpush.subset hx) with hx | hx
    · exact h.sinceDelayed x hx
    · rw [mem_singleton.mp hx, hsince]
  · intro id hid
    rcases mem_cons.mp (hids.subset hid) with rfl | hid
    · exact Nat.lt_succ_self _
    · exact Nat.lt_succ_of_lt (h.idLt id hid)

theorem move_ok (h : RunnerOk s) {pending : Bool} {unsent : List Nat} {timer : Option UInt64} {returns : List Returned} {phase : Phase}
    (htasks : phase.tasks = s.phase.tasks) (hdelayed : phase.delayed = s.phase.delayed)
    (hbatch : ∀ timed now tasks delayed, phase = .draining timed now tasks delayed → Batch s now tasks delayed)
    (hawake : ∀ task ∈ s.tasks, task.id ∉ unsent → pending = true ∨ phase.toTake = true) :
    RunnerOk { s with pending, unsent, timer, returns, phase } := by
  refine ⟨⟨?_, ?_, h.distinct, h.onTime, h.byDeadline, h.later, hawake⟩, ?_, h.sinceTasks, h.sinceDelayed, h.drainLe, h.idLt⟩
  · simp only [htasks]; exact h.kept
  · simp only [hdelayed]; exact h.keptDelayed
  · intro timed now tasks delayed hp
    have hb := hbatch timed now tasks delayed hp
    exact ⟨hb.tasksLater, hb.delayedLater, hb.due, hb.sorted, hb.after⟩

variable {timed : Bool}

theorem takeTasks_ok (h : RunnerOk s) (hphase : s.phase = .read timed now) : RunnerOk (takeTasks Q s timed now) := by
  have hkept := h.kept
  have hdelayed := h.keptDelayed
  have hdue := Q.takeDue_perm now.toNat s.delayed
  simp only [hphase, Phase.tasks, Phase.delayed, append_nil] at hkept hdelayed
  refine ⟨⟨?_, ?_, h.distinct, h.onTime, h.byDeadline, h.later, nofun⟩, ?_, nofun, ?_, ?_, h.idLt⟩
  · simpa [takeTasks, Phase.tasks] using hkept
  · simp only [takeTasks, Phase.delayed, append_assoc]
    exact (hdue.append_left _).trans hdelayed
  · rintro timed' now' tasks delayed ⟨⟩
    refine ⟨?_, ?_, ?_, ?_, ?_⟩
    · intro task ht
      exact Nat.lt_succ_of_le (h.sinceTasks task ht)
    · intro task ht
      exact Nat.lt_succ_of_le (h.sinceDelayed task (hdue.subset (mem_append_left _ ht)))
    · intro task ht
      exact UInt64.le_iff_toNat_le.mpr (Q.takeDue_due now.toNat s.delayed task ht)
    · exact (Q.takeDue_sorted now.toNat s.delayed).imp UInt64.le_iff_toNat_le.mpr
    · -- nothing has been run yet by a drain of this number
      intro r hr he
      have hle := h.drainLe r hr
      have he : r.drain = s.drains + 1 := he
      omega
  · intro task ht
    exact Nat.le_succ_of_le (h.sinceDelayed task (hdue.subset (mem_append_right _ ht)))
  · intro r hr
    exact Nat.le_succ_of_le (h.drainLe r hr)

variable {tasks : List PlatformTask} {delayed : List PlatformDelayedTask}

/-- While a batch is run, the wake-up of a task that was posted is still to come. -/
theorem draining_awake (h : RunnerOk s)
    (hphase : s.phase = .draining timed now tasks delayed) : ∀ task ∈ s.tasks, task.id ∉ s.unsent → s.pending = true := by
  intro task ht hs
  simpa [hphase, Phase.toTake] using h.awake task ht hs

theorem runTask_ok (h : RunnerOk s) {task : PlatformTask}
    (hphase : s.phase = .draining timed now (task :: tasks) delayed) :
    RunnerOk (runNext Q s timed now (task :: tasks) delayed) := by
  have hkept := h.kept
  have hkeptDelayed := h.keptDelayed
  have hb := h.batch _ _ _ _ hphase
  have hawake := draining_awake h hphase
  simp only [hphase, Phase.tasks, Phase.delayed] at hkept hkeptDelayed
  refine ⟨⟨?_, hkeptDelayed, h.distinct, h.onTime, h.byDeadline, ⟨?_, h.later.2⟩, fun x hx hs => Or.inl (hawake x hx hs)⟩,
    ?_, h.sinceTasks, h.sinceDelayed, h.drainLe, h.idLt⟩
  · simpa [runNext, Phase.tasks] using hkept
  · exact forall_mem_append.mpr ⟨h.later.1, forall_mem_singleton.mpr (hb.tasksLater task mem_cons_self)⟩
  · rintro timed' now' tasks' delayed' ⟨⟩
    exact ⟨fun x hx => hb.tasksLater x (mem_cons_of_mem _ hx), hb.delayedLater, hb.due, hb.sorted, hb.after⟩

/-- The delayed tasks of a batch come after all others, in the order of their deadlines. -/
theorem runDelayed_ok (h : RunnerOk s)
    (hphase : s.phase = .draining timed now [] (task :: delayed)) : RunnerOk (runNext Q s timed now [] (task :: delayed)) := by
  have hkept := h.kept
  have hkeptDelayed := h.keptDelayed
  have hb := h.batch _ _ _ _ hphase
  have hawake := draining_awake h hphase
  simp only [hphase, Phase.tasks, Phase.delayed] at hkept hkeptDelayed
  obtain ⟨hfirst, hsorted⟩ := pairwise_cons.mp hb.sorted
  refine ⟨⟨hkept, ?_, h.distinct, ?_, ?_, ⟨h.later.1, ?_⟩, fun x hx hs => Or.inl (hawake x hx hs)⟩, ?_, h.sinceTasks,
    h.sinceDelayed, ?_, h.idLt⟩
  · simpa [runNext, Phase.delayed] using hkeptDelayed
  · exact forall_mem_append.mpr ⟨h.onTime, forall_mem_singleton.mpr (hb.due task mem_cons_self)⟩
  · refine pairwise_append.mpr ⟨h.byDeadline, pairwise_singleton _ _, fun r hr r' hr' he => ?_⟩
    rw [mem_singleton.mp hr'] at he ⊢
    exact hb.after r hr he task mem_cons_self
  · exact forall_mem_append.mpr ⟨h.later.2, forall_mem_singleton.mpr (hb.delayedLater task mem_cons_self)⟩
  · rintro timed' now' tasks' delayed' ⟨⟩
    refine ⟨nofun, fun x hx => hb.delayedLater x (mem_cons_of_mem _ hx), fun x hx => hb.due x (mem_cons_of_mem _ hx),
      hsorted, fun r hr he x hx => ?_⟩
    rcases mem_append.mp hr with hr | hr
    · exact hb.after r hr he x (mem_cons_of_mem _ hx)
    · rw [mem_singleton.mp hr]; exact hfirst x hx
  · exact forall_mem_append.mpr ⟨h.drainLe, forall_mem_singleton.mpr (Nat.le_refl s.drains)⟩

theorem runNext_ok (h : RunnerOk s)
    (hphase : s.phase = .draining timed now tasks delayed) : RunnerOk (runNext Q s timed now tasks delayed) := by
  match tasks, delayed with
  | task :: tasks, delayed => exact runTask_ok h hphase
  | [], task :: delayed => exact runDelayed_ok h hphase
  | [], [] =>
    refine move_ok h ?_ ?_ ?_ fun task ht hs => Or.inl (draining_awake h hphase task ht hs)
    · cases timed <;> simp [hphase, Phase.tasks]
    · cases timed <;> simp [hphase, Phase.delayed]
    · cases timed <;> nofun

theorem step_ok (h : RunnerOk s) (hs : step Q s e = some s') : RunnerOk s' := by
  cases step_moves hs with
  | postTask => exact postTask_ok h
  | postDelayedTask hrtime delay task hid hsince => exact postDelayed_ok h hid hsince
  | send id hid => exact move_ok h rfl rfl h.batch fun _ _ _ => Or.inl rfl
  | async hp => exact move_ok h (by rw [hp]; rfl) (by rw [hp]; rfl) nofun fun _ _ _ => Or.inr rfl
  | timer hp => exact move_ok h (by rw [hp]; rfl) (by rw [hp]; rfl) nofun fun _ _ _ => Or.inr rfl
  | drainTasks hp => exact move_ok h (by rw [hp]; rfl) (by rw [hp]; rfl) nofun fun _ _ _ => Or.inr rfl
  | readClock hrtime timed hp => exact move_ok h (by rw [hp]; rfl) (by rw [hp]; rfl) nofun fun _ _ _ => Or.inr rfl
  | readAgain hrtime hp =>
    refine move_ok h (by rw [hp]; rfl) (by rw [hp]; rfl) nofun fun task ht hu => ?_
    simpa [hp, Phase.toTake] using h.awake task ht hu
  | takeTasks timed now hp => exact takeTasks_ok h hp
  | runNext timed now tasks delayed hp => exact runNext_ok h hp
  | rearm now hp =>
    refine move_ok h (by rw [hp]; rfl) (by rw [hp]; rfl) nofun fun task ht hu => ?_
    simpa [hp, Phase.toTake] using h.awake task ht hu

end Aworker.TaskRunner
