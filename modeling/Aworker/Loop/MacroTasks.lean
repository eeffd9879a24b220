/-
  Aworker.Loop.MacroTasks — long work cut into ticks (src/macro_task_queue.cc:
  `MacroTaskQueue`).

  An idle handle of the loop is active while there is work. Its callback takes tasks from
  the front of the queue, at most `max_tick_per_loop` of them: each is ticked, and then
  either done, or pushed back to the end. Both `OnWorkTick` and `OnDone` may enqueue tasks.
  `active_` is the queue's own copy of whether the handle is active.

  (1) `macro_tasks_scheduled`.
  (2) `queue_advances`: whoever is queued is ticked before more ticks are made than there are
      tasks ahead of it.
-/

import Mathlib
import Aworker.Lib.RoundRobin
import Aworker.Lib.Run

namespace Aworker.MacroTasks

open Aworker.Lib List

/-! ## The queue -/

inductive Phase where
  | outside
  /-- in the callback's loop, with so many tasks processed -/
  | looping (processed : Nat)
  /-- in `OnWorkTick` -/
  | working (processed : Nat) (task : Nat)
  /-- in `OnDone` -/
  | finishing (processed : Nat) (task : Nat)

/-- A call of `OnWorkTick`, in which callback of the handle, and the tasks queued then. -/
structure Tick extends Turn Nat where
  callback : Nat

/-- A call of `OnDone`, and how many ticks had been made. -/
structure Finished where
  task : Nat
  after : Nat

/-- Tasks are known by the order they were enqueued in. -/
structure MacroTaskQueue where
  queue : List Nat := []
  active : Bool := false
  /-- `idle_` is started -/
  idle : Bool := false
  phase : Phase := .outside
  enqueued : Nat := 0
  callbacks : Nat := 0
  ticks : List Tick := []
  finished : List Finished := []

inductive Ev where
  | enqueue
  | idle
  /-- the next turn of the loop, or its end -/
  | next
  /-- `OnWorkTick` returns; the task is then done or failed, or not -/
  | worked (finished : Bool)
  | doneReturned

def enqueue (s : MacroTaskQueue) : MacroTaskQueue :=
  { s with queue := s.queue ++ [s.enqueued], enqueued := s.enqueued + 1, idle := if s.active then s.idle else true, active := true }

def leave (s : MacroTaskQueue) : MacroTaskQueue :=
  if s.queue = [] then { s with idle := false, active := false, phase := .outside } else { s with active := true, phase := .outside }

def next (max : Nat) (s : MacroTaskQueue) (processed : Nat) : MacroTaskQueue :=
  if processed < max then
    match s.queue with
    | [] => leave s
    | task :: queue =>
      { s with queue, phase := .working processed task, ticks := s.ticks ++ [{ task, others := queue, callback := s.callbacks }] }
  else leave s

def step (max : Nat) (s : MacroTaskQueue) : Ev → Option MacroTaskQueue
  | .enqueue =>
    match s.phase with
    | .looping _ => none
    | _ => some (enqueue s)
  | .idle =>
    match s.phase, s.idle with
    | .outside, true => some { s with phase := .looping 0, callbacks := s.callbacks + 1 }
    | _, _ => none
  | .next =>
    match s.phase with
    | .looping processed => some (next max s processed)
    | _ => none
  | .worked true =>
    match s.phase with
    | .working processed task =>
      some { s with phase := .finishing processed task, finished := s.finished ++ [{ task, after := s.ticks.length }] }
    | _ => none
  | .worked false =>
    match s.phase with
    | .working processed task => some { s with queue := s.queue ++ [task], phase := .looping (processed + 1) }
    | _ => none
  | .doneReturned =>
    match s.phase with
    | .finishing processed _ => some { s with phase := .looping (processed + 1) }
    | _ => none

/-- The task in `OnWorkTick`. -/
def Phase.current : Phase → List Nat
  | .working _ task => [task]
  | _ => []

def turns (s : MacroTaskQueue) : List (Turn Nat) := s.ticks.map Tick.toTurn

/-- Ticks of callback `k` of the handle. -/
def ticksIn (s : MacroTaskQueue) (k : Nat) : Nat := s.ticks.countP (·.callback = k)

/-! ## What a step does -/

inductive Moves (max : Nat) (s : MacroTaskQueue) : Ev → MacroTaskQueue → Prop
  | enqueue : (∀ processed, s.phase ≠ .looping processed) → Moves max s .enqueue (enqueue s)
  | idle : s.phase = .outside → s.idle = true → Moves max s .idle { s with phase := .looping 0, callbacks := s.callbacks + 1 }
  | tick (processed task : Nat) (queue : List Nat) : s.phase = .looping processed → processed < max → s.queue = task :: queue →
      Moves max s .next { s with
        queue, phase := .working processed task, ticks := s.ticks ++ [{ task, others := queue, callback := s.callbacks }] }
  | stop (processed : Nat) : s.phase = .looping processed → s.queue = [] →
      Moves max s .next { s with idle := false, active := false, phase := .outside }
  | pause (processed : Nat) : s.phase = .looping processed → max ≤ processed → s.queue ≠ [] →
      Moves max s .next { s with active := true, phase := .outside }
  | finish (processed task : Nat) : s.phase = .working processed task →
      Moves max s (.worked true) { s with
        phase := .finishing processed task, finished := s.finished ++ [{ task, after := s.ticks.length }] }
  | requeue (processed task : Nat) : s.phase = .working processed task →
      Moves max s (.worked false) { s with queue := s.queue ++ [task], phase := .looping (processed + 1) }
  | doneReturned (processed task : Nat) : s.phase = .finishing processed task →
      Moves max s .doneReturned { s with phase := .looping (processed + 1) }

variable {max : Nat} {s s' : MacroTaskQueue} {e : Ev}

variable {processed : Nat}

theorem next_moves (hp : s.phase = .looping processed) : Moves max s .next (next max s processed) := by
  unfold next leave
  split
  · next hlt =>
    split
    · next hq => rw [if_pos hq]; exact .stop processed hp hq
    · next task queue hq => exact .tick processed task queue hp hlt hq
  · next hge =>
    split
    · next hq => exact .stop processed hp hq
    · next hq => exact .pause processed hp (not_lt.mp hge) hq

theorem step_moves (h : step max s e = some s') : Moves max s e s' := by
  cases e with
  | enqueue =>
    simp only [step] at h
    split at h
    · cases h
    · next hp => cases h; exact .enqueue hp
  | idle =>
    simp only [step] at h
    split at h
    · next hp hi => cases h; exact .idle hp hi
    · cases h
  | next =>
    simp only [step] at h
    split at h
    · next hp => cases h; exact next_moves hp
    · cases h
  | worked finished =>
    cases finished with
    | true =>
      simp only [step] at h
      split at h
      · next hp => cases h; exact .finish _ _ hp
      · cases h
    | false =>
      simp only [step] at h
      split at h
      · next hp => cases h; exact .requeue _ _ hp
      · cases h
  | doneReturned =>
    simp only [step] at h
    split at h
    · next hp => cases h; exact .doneReturned _ _ hp
    · cases h

/-! ## The handle -/

structure HandleOk (s : MacroTaskQueue) : Prop where
  copy : s.active = s.idle
  between : s.phase = .outside → (s.idle = true ↔ s.queue ≠ [])
  inside : s.phase ≠ .outside → s.idle = true

theorem handle_step (h : HandleOk s) (hs : step max s e = some s') : HandleOk s' := by
  cases step_moves hs with
  | enqueue hp =>
    have hidle : (enqueue s).idle = true := by
      have := h.copy
      simp only [enqueue]
      split <;> simp_all
    exact ⟨hidle.symm, fun _ => iff_of_true hidle (by simp [enqueue]), fun _ => hidle⟩
  | idle hp hi => exact ⟨h.copy, nofun, fun _ => hi⟩
  | tick processed task queue hp =>
    have hi := h.inside (by rw [hp]; nofun)
    exact ⟨h.copy, nofun, fun _ => hi⟩
  | stop processed hp hq => exact ⟨rfl, fun _ => iff_of_false Bool.false_ne_true (fun hne => hne hq), fun hne => absurd rfl hne⟩
  | pause processed hp hge hq =>
    have hi := h.inside (by rw [hp]; nofun)
    exact ⟨hi.symm, fun _ => iff_of_true hi hq, fun hne => absurd rfl hne⟩
  | finish processed task hp =>
    have hi := h.inside (by rw [hp]; nofun)
    exact ⟨h.copy, nofun, fun _ => hi⟩
  | requeue processed task hp =>
    have hi := h.inside (by rw [hp]; nofun)
    exact ⟨h.copy, nofun, fun _ => hi⟩
  | doneReturned processed task hp =>
    have hi := h.inside (by rw [hp]; nofun)
    exact ⟨h.copy, nofun, fun _ => hi⟩

/-! ## How many ticks a callback makes -/

/-- Ticks made by the callback that is running. -/
def Phase.made : Phase → Nat
  | .outside => 0
  | .looping processed => processed
  | .working processed _ => processed + 1
  | .finishing processed _ => processed + 1

structure TicksOk (max : Nat) (s : MacroTaskQueue) : Prop where
  atMost : ∀ k, ticksIn s k ≤ max
  started : ∀ x ∈ s.ticks, x.callback ≤ s.callbacks
  running : s.phase ≠ .outside → ticksIn s s.callbacks = s.phase.made
  /-- a callback that has returned has made one -/
  atLeast : ∀ k, 0 < k → k < s.callbacks ∨ k = s.callbacks ∧ s.phase = .outside → 1 ≤ ticksIn s k
  /-- before the first tick there is a task -/
  ready : s.phase = .looping 0 → s.queue ≠ []

theorem ticksIn_new (h : TicksOk max s) : ticksIn s (s.callbacks + 1) = 0 := by
  refine countP_eq_zero.mpr fun x hx => ?_
  have := h.started x hx
  simp only [decide_eq_true_eq]
  omega

theorem leave_ticks (hmax : 1 ≤ max) (h : TicksOk max s) (hp : s.phase = .looping processed)
    (hend : max ≤ processed ∨ s.queue = []) {k : Nat} (hk : 0 < k) (hle : k ≤ s.callbacks) : 1 ≤ ticksIn s k := by
  rcases Nat.lt_or_eq_of_le hle with hlt | rfl
  · exact h.atLeast k hk (Or.inl hlt)
  · have hrun := h.running (by rw [hp]; nofun)
    have hready := h.ready
    rw [hp] at hrun hready
    rw [hrun, Phase.made]
    rcases hend with hge | hq
    · omega
    · by_contra h0
      obtain rfl : processed = 0 := by omega
      exact hready rfl hq

variable {task : Nat} {queue : List Nat}

theorem tick_ticks (h : TicksOk max s) (hp : s.phase = .looping processed)
    (hlt : processed < max) : TicksOk max { s with
      queue, phase := .working processed task, ticks := s.ticks ++ [{ task, others := queue, callback := s.callbacks }] } := by
  have hrun := h.running (by rw [hp]; nofun)
  rw [hp, Phase.made] at hrun
  have hcount : ∀ k, ticksIn { s with
      queue, phase := .working processed task, ticks := s.ticks ++ [{ task, others := queue, callback := s.callbacks }] } k =
      ticksIn s k + if s.callbacks = k then 1 else 0 := by
    intro k
    simp only [ticksIn, countP_append, countP_singleton, decide_eq_true_eq]
  refine ⟨fun k => ?_, fun x hx => ?_, fun _ => ?_, fun k hk hdone => ?_, nofun⟩
  · rw [hcount]
    have := h.atMost k
    split
    · next he => subst he; omega
    · omega
  · rcases mem_append.mp hx with hx | hx
    · exact h.started x hx
    · rw [mem_singleton.mp hx]
  · rw [hcount, if_pos rfl, hrun]
    rfl
  · rw [hcount]
    rcases hdone with hlt | ⟨-, hout⟩
    · have := h.atLeast k hk (Or.inl hlt)
      omega
    · cases hout

theorem ticks_step (hmax : 1 ≤ max) (hh : HandleOk s) (h : TicksOk max s) (hs : step max s e = some s') : TicksOk max s' := by
  cases step_moves hs with
  | enqueue hp => exact ⟨h.atMost, h.started, h.running, h.atLeast, fun _ => by simp [enqueue]⟩
  | idle hp hi =>
    have hnew := ticksIn_new h
    refine ⟨h.atMost, fun x hx => Nat.le_succ_of_le (h.started x hx), fun _ => hnew, fun k hk hdone => ?_, fun _ => ?_⟩
    · rcases hdone with hlt | ⟨-, hout⟩
      · refine h.atLeast k hk ?_
        rcases Nat.lt_or_eq_of_le (Nat.lt_succ_iff.mp hlt) with hlt | he
        · exact Or.inl hlt
        · exact Or.inr ⟨he, hp⟩
      · cases hout
    · exact (hh.between hp).mp hi
  | tick processed task queue hp hlt => exact tick_ticks h hp hlt
  | stop processed hp hq =>
    refine ⟨h.atMost, h.started, fun hne => absurd rfl hne, fun k hk hdone => ?_, nofun⟩
    exact leave_ticks hmax h hp (Or.inr hq) hk (hdone.elim Nat.le_of_lt fun he => Nat.le_of_eq he.1)
  | pause processed hp hge hq =>
    refine ⟨h.atMost, h.started, fun hne => absurd rfl hne, fun k hk hdone => ?_, nofun⟩
    exact leave_ticks hmax h hp (Or.inl hge) hk (hdone.elim Nat.le_of_lt fun he => Nat.le_of_eq he.1)
  | finish processed task hp =>
    have hrun := h.running (by rw [hp]; nofun)
    rw [hp] at hrun
    exact ⟨h.atMost, h.started, fun _ => hrun, fun k hk hdone => h.atLeast k hk (hdone.imp_right fun he => by cases he.2), nofun⟩
  | requeue processed task hp =>
    have hrun := h.running (by rw [hp]; nofun)
    rw [hp] at hrun
    exact ⟨h.atMost, h.started, fun _ => hrun, fun k hk hdone => h.atLeast k hk (hdone.imp_right fun he => by cases he.2), nofun⟩
  | doneReturned processed task hp =>
    have hrun := h.running (by rw [hp]; nofun)
    rw [hp] at hrun
    exact ⟨h.atMost, h.started, fun _ => hrun, fun k hk hdone => h.atLeast k hk (hdone.imp_right fun he => by cases he.2), nofun⟩

/-! ## The tasks -/

structure TasksOk (s : MacroTaskQueue) : Prop where
  kept : (s.queue ++ s.phase.current ++ s.finished.map Finished.task).Perm (List.range s.enqueued)
  notAgain : ∀ f ∈ s.finished, f.task ∉ (s.ticks.drop f.after).map (·.task)
  after : ∀ f ∈ s.finished, f.after ≤ s.ticks.length
  ticked : ∀ x ∈ turns s, x.task < s.enqueued
  others : ∀ x ∈ turns s, ∀ u ∈ x.others, u < s.enqueued
  owed : ∀ t ∈ s.queue ++ s.phase.current, Owed (turns s) s.queue t
  roundRobin : RoundRobin (turns s)

theorem TasksOk.nodup (h : TasksOk s) : (s.queue ++ s.phase.current ++ s.finished.map Finished.task).Nodup :=
  h.kept.nodup_iff.mpr nodup_range

theorem TasksOk.lt (h : TasksOk s) {t : Nat} (ht : t ∈ s.queue ++ s.phase.current) : t < s.enqueued :=
  mem_range.mp (h.kept.subset (mem_append_left _ ht))

theorem enqueue_tasks (h : TasksOk s) : TasksOk (enqueue s) := by
  have hperm : (s.queue ++ [s.enqueued] ++ s.phase.current ++ s.finished.map Finished.task).Perm (List.range (s.enqueued + 1)) := by
    rw [range_succ]
    refine List.Perm.trans ?_ (h.kept.append_right [s.enqueued])
    simp only [append_assoc]
    refine List.Perm.append_left _ ?_
    rw [← append_assoc s.phase.current]
    exact perm_append_comm
  refine ⟨hperm, h.notAgain, h.after, fun x hx => Nat.lt_succ_of_lt (h.ticked x hx),
    fun x hx u hu => Nat.lt_succ_of_lt (h.others x hx u hu), fun t ht => ?_, h.roundRobin⟩
  have hnew : ∀ x ∈ turns s, s.enqueued ∉ x.others := fun x hx hm => Nat.lt_irrefl _ (h.others x hx _ hm)
  by_cases hq : t ∈ s.queue
  · exact owed_push (h.owed t (mem_append_left _ hq)) hq _
  · by_cases hc : t ∈ s.phase.current
    · have ht := mem_append_right s.queue hc
      exact owed_push_new (h.owed t ht) hq (Nat.ne_of_gt (h.lt ht)) hnew
    · obtain rfl : t = s.enqueued := by
        simp only [enqueue, mem_append, mem_singleton] at ht
        tauto
      exact owed_new _ fun x hx => Nat.ne_of_lt (h.ticked x hx)

theorem tick_tasks (h : TasksOk s) (hp : s.phase = .looping processed) (hq : s.queue = task :: queue) : TasksOk { s with
      queue, phase := .working processed task, ticks := s.ticks ++ [{ task, others := queue, callback := s.callbacks }] } := by
  have hkept := h.kept
  have hnodup := h.nodup
  have howed := h.owed
  simp only [hp, hq, Phase.current, append_nil] at hkept hnodup howed
  have hlt : ∀ u ∈ task :: queue, u < s.enqueued := fun u hu => mem_range.mp (hkept.subset (mem_append_left _ hu))
  have hturns : ∀ x, x ∈ turns { s with
      queue, phase := .working processed task, ticks := s.ticks ++ [{ task, others := queue, callback := s.callbacks }] } →
      x ∈ turns s ∨ x = { task, others := queue } := by
    intro x hx
    simpa [turns] using hx
  refine ⟨?_, fun f hf => ?_, fun f hf => ?_, fun x hx => ?_, fun x hx u hu => ?_, fun t ht => ?_, ?_⟩
  · refine List.Perm.trans ?_ hkept
    simp only [Phase.current, append_assoc, cons_append, nil_append]
    exact perm_middle
  · -- the task that is ticked is not one of those that are done
    have hne : f.task ≠ task := by
      rintro rfl
      exact (nodup_append.mp hnodup).2.2 _ mem_cons_self _ (mem_map_of_mem hf) rfl
    rw [drop_append_of_le_length (h.after f hf)]
    simpa [hne] using h.notAgain f hf
  · simpa using Nat.le_succ_of_le (h.after f hf)
  · rcases hturns x hx with hx | rfl
    · exact h.ticked x hx
    · exact hlt task mem_cons_self
  · rcases hturns x hx with hx | rfl
    · exact h.others x hx u hu
    · exact hlt u (mem_cons_of_mem _ hu)
  · have hend : turns { s with
        queue, phase := .working processed task, ticks := s.ticks ++ [{ task, others := queue, callback := s.callbacks }] } =
        turns s ++ [{ task, others := queue }] := by simp [turns]
    rw [hend]
    by_cases hte : task = t
    · subst hte
      exact owed_turn_self (nodup_append.mp hnodup).1
    · refine owed_turn (howed t ?_) hte
      simp only [Phase.current, mem_append, mem_singleton] at ht
      rcases ht with ht | rfl
      · exact mem_cons_of_mem _ ht
      · exact absurd rfl hte
  · have := roundRobin_turn h.roundRobin (howed task mem_cons_self)
    simpa [turns] using this

theorem finish_tasks (h : TasksOk s) (hp : s.phase = .working processed task) : TasksOk { s with
    phase := .finishing processed task, finished := s.finished ++ [{ task, after := s.ticks.length }] } := by
  have hkept := h.kept
  have howed := h.owed
  simp only [hp, Phase.current] at hkept howed
  refine ⟨?_, fun f hf => ?_, fun f hf => ?_, h.ticked, h.others, fun t ht => ?_, h.roundRobin⟩
  · refine List.Perm.trans ?_ hkept
    simp only [Phase.current, append_nil, map_append, map_cons, map_nil, append_assoc]
    exact (perm_append_comm).append_left _
  · rcases mem_append.mp hf with hf | hf
    · exact h.notAgain f hf
    · rw [mem_singleton.mp hf]; simp
  · rcases mem_append.mp hf with hf | hf
    · exact h.after f hf
    · rw [mem_singleton.mp hf]
  · simp only [Phase.current, append_nil] at ht
    exact howed t (mem_append_left _ ht)

theorem requeue_tasks (h : TasksOk s) (hp : s.phase = .working processed task) : TasksOk { s with
    queue := s.queue ++ [task], phase := .looping (processed + 1) } := by
  have hkept := h.kept
  have hnodup := h.nodup
  have howed := h.owed
  simp only [hp, Phase.current] at hkept hnodup howed
  have hnot : task ∉ s.queue := by
    intro hm
    exact (nodup_append.mp (nodup_append.mp hnodup).1).2.2 task hm task (mem_singleton_self _) rfl
  refine ⟨by simpa [Phase.current] using hkept, h.notAgain, h.after, h.ticked, h.others, fun t ht => ?_, h.roundRobin⟩
  simp only [Phase.current, append_nil] at ht
  rcases mem_append.mp ht with hq | hq
  · exact owed_push (howed t ht) hq _
  · obtain rfl := mem_singleton.mp hq
    exact owed_requeue (howed t ht) hnot

theorem move_tasks (h : TasksOk s) {active idle : Bool} {phase : Phase} {callbacks : Nat} (hp : phase.current = s.phase.current) :
    TasksOk { s with active, idle, phase, callbacks } := by
  refine ⟨?_, h.notAgain, h.after, h.ticked, h.others, ?_, h.roundRobin⟩
  · simp only [hp]; exact h.kept
  · simp only [hp]; exact h.owed

theorem tasks_step (h : TasksOk s) (hs : step max s e = some s') : TasksOk s' := by
  cases step_moves hs with
  | enqueue hp => exact enqueue_tasks h
  | idle hp hi => exact move_tasks h (by rw [hp]; rfl)
  | tick processed task queue hp hlt hq => exact tick_tasks h hp hq
  | stop processed hp hq => exact move_tasks h (by rw [hp]; rfl)
  | pause processed hp hge hq => exact move_tasks h (by rw [hp]; rfl)
  | finish processed task hp => exact finish_tasks h hp
  | requeue processed task hp => exact requeue_tasks h hp
  | doneReturned processed task hp => exact move_tasks h (by rw [hp]; rfl)

/-! ## Whole runs -/

/-- In every state: the handle, the callbacks, the tasks and their order. -/
structure Scheduled (max : Nat) (s : MacroTaskQueue) : Prop where
  idleIff : s.phase = .outside → (s.idle = true ↔ s.queue ≠ [])
  atMost : ∀ k, ticksIn s k ≤ max
  atLeast : ∀ k, 0 < k → k < s.callbacks ∨ k = s.callbacks ∧ s.phase = .outside → 1 ≤ ticksIn s k
  /-- each task is queued, being ticked, or done, and only one of these, once -/
  kept : (s.queue ++ s.phase.current ++ s.finished.map Finished.task).Perm (List.range s.enqueued)
  notAgain : ∀ f ∈ s.finished, f.task ∉ (s.ticks.drop f.after).map (·.task)
  roundRobin : RoundRobin (turns s)

structure QueueOk (max : Nat) (s : MacroTaskQueue) : Prop where
  handle : HandleOk s
  ticks : TicksOk max s
  tasks : TasksOk s

theorem start_ok (max : Nat) : QueueOk max {} := by
  refine ⟨⟨rfl, fun _ => by simp, fun h => absurd rfl h⟩, ⟨fun k => Nat.zero_le _, nofun, fun h => absurd rfl h, ?_, nofun⟩,
    ⟨List.Perm.refl _, nofun, nofun, nofun, nofun, nofun, roundRobin_nil⟩⟩
  intro k hk hdone
  rcases hdone with h | ⟨h, -⟩
  · exact absurd h (Nat.not_lt_zero k)
  · exact absurd h (Nat.ne_of_gt hk)

theorem queue_step (hmax : 1 ≤ max) (h : QueueOk max s) (hs : step max s e = some s') : QueueOk max s' :=
  ⟨handle_step h.handle hs, ticks_step hmax h.handle h.ticks hs, tasks_step h.tasks hs⟩

theorem step_ticks (hs : step max s e = some s') : ∃ new, s'.ticks = s.ticks ++ new := by
  cases step_moves hs with
  | tick processed task queue hp hlt hq => exact ⟨_, rfl⟩
  | _ => exact ⟨[], (append_nil _).symm⟩

/-- `u` has had one of the ticks since, or is nearer by their number. -/
def Nearer (s : MacroTaskQueue) (u : Nat) (t : MacroTaskQueue) : Prop :=
  ∃ new, t.ticks = s.ticks ++ new ∧
    (u ∈ new.map (·.task) ∨ u ∈ t.queue ∧ new.length + (ahead t.queue u).length = (ahead s.queue u).length)

variable {u : Nat}

theorem nearer_step (hu : u ∈ s.queue) (hs : step max s e = some s') : Nearer s u s' := by
  cases step_moves hs with
  | tick processed task queue hp hlt hq =>
    refine ⟨_, rfl, ?_⟩
    by_cases hut : task = u
    · exact Or.inl (by simp [hut])
    · rw [hq] at hu
      refine Or.inr ⟨(mem_cons.mp hu).resolve_left (Ne.symm hut), ?_⟩
      rw [hq, ahead_turn hut, length_singleton, length_cons, Nat.add_comm]
  | enqueue hp =>
    refine ⟨[], (append_nil _).symm, Or.inr ⟨mem_append_left _ hu, ?_⟩⟩
    simp only [enqueue, ahead_append hu, length_nil, Nat.zero_add]
  | requeue processed task hp =>
    refine ⟨[], (append_nil _).symm, Or.inr ⟨mem_append_left _ hu, ?_⟩⟩
    simp only [ahead_append hu, length_nil, Nat.zero_add]
  | _ => exact ⟨[], (append_nil _).symm, Or.inr ⟨hu, Nat.zero_add _⟩⟩

theorem nearer_trans {x x' : MacroTaskQueue} (hx : Nearer s u x) (hs : step max x e = some x') : Nearer s u x' := by
  obtain ⟨new, hnew, hticked | ⟨hq, hlen⟩⟩ := hx
  · obtain ⟨more, hmore⟩ := step_ticks hs
    refine ⟨new ++ more, by rw [hmore, hnew, append_assoc], Or.inl ?_⟩
    rw [map_append]
    exact mem_append_left _ hticked
  · obtain ⟨more, hmore, hcase⟩ := nearer_step hq hs
    refine ⟨new ++ more, by rw [hmore, hnew, append_assoc], ?_⟩
    rcases hcase with hticked | ⟨hq', hlen'⟩
    · left
      rw [map_append]
      exact mem_append_right _ hticked
    · right
      refine ⟨hq', ?_⟩
      rw [length_append]
      omega

theorem queue_advances {es : List Ev} {t : MacroTaskQueue} (hu : u ∈ s.queue) (hr : run (step max) s es = some t) :
    ∃ new, t.ticks = s.ticks ++ new ∧ (u ∈ new.map (·.task) ∨ new.length ≤ (ahead s.queue u).length) := by
  have hstart : Nearer s u s := ⟨[], (append_nil _).symm, Or.inr ⟨hu, Nat.zero_add _⟩⟩
  obtain ⟨new, hnew, hcase⟩ : Nearer s u t :=
    run_inv (Q := fun _ _ => True) (fun x e x' hx _ hs => nearer_trans hx hs) hstart (along_true _ _) hr
  exact ⟨new, hnew, hcase.imp_right fun h => by omega⟩

/-- Whatever the tasks enqueue while they are ticked or done; and from there on a queued task
    is ticked before more ticks are made than there are tasks ahead of it. -/
theorem macro_tasks_scheduled (hmax : 1 ≤ max) {es : List Ev} {t : MacroTaskQueue} (hr : run (step max) {} es = some t) :
    Scheduled max t ∧ ∀ fs u, run (step max) t fs = some u → ∀ task ∈ t.queue,
      ∃ new, u.ticks = t.ticks ++ new ∧ (task ∈ new.map (·.task) ∨ new.length ≤ (ahead t.queue task).length) := by
  have hok : QueueOk max t :=
    run_inv (Q := fun _ _ => True) (fun s e s' h _ hs => queue_step hmax h hs) (start_ok max) (along_true _ _) hr
  refine ⟨?_, fun fs u hu task htask => queue_advances htask hu⟩
  exact ⟨hok.handle.between, hok.ticks.atMost, hok.ticks.atLeast, hok.tasks.kept, hok.tasks.notAgain, hok.tasks.roundRobin⟩

/-- Task 0 enqueues task 2 while it is ticked, and task 1 enqueues task 3 when it is done. -/
def enqueuingRun : List Ev :=
  [.enqueue, .enqueue, .idle, .next, .enqueue, .worked false, .next, .worked true, .enqueue, .doneReturned, .next]

theorem macro_tasks_scheduled_enqueuing :
    ∃ t, run (step 2) {} enqueuingRun = some t ∧ Scheduled 2 t ∧ t.queue = [2, 0, 3] ∧ t.idle = true :=
  ⟨_, rfl, (@macro_tasks_scheduled 2 (by decide) enqueuingRun _ rfl).1, rfl, rfl⟩

end Aworker.MacroTasks
