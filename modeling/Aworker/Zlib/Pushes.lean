/-
  Aworker.Zlib.Pushes — asynchronous compression streams over the macro task queue
  (src/zlib/, src/macro_task_queue.cc).

  Any number of wrappers put their tasks in one macro task queue, between tasks that are not
  theirs. Pushes come at any time that code can run: between the ticks, in the callbacks,
  and in other tasks.

  Main result: `pushes_serialized`.
-/

import Mathlib
import Aworker.Loop.MacroTasks
import Aworker.Zlib.Wrapper

namespace Aworker.Zlib

open Aworker.Lib List Option
open Aworker.MacroTasks (MacroTaskQueue)

variable {ι : Type} [DecidableEq ι]

/-! ## The system -/

structure System (ι : Type) where
  queue : MacroTaskQueue := {}
  /-- the wrapper and the push each macro task was made for, if it was made for one -/
  owner : List (Option (ι × Nat)) := []
  wrapper : ι → Wrapper

inductive Ev (ι : Type) where
  | push (i : ι) (flush : Int)
  | enqueueOther
  | idle
  | next
  /-- `OnWorkTick` of a wrapper's task, and `OnDone` up to and with the callback -/
  | tick (r : LibResult)
  | tickOther (finished : Bool)
  | doneReturned

def ownerOf (s : System ι) (t : Nat) : Option (ι × Nat) := s.owner[t]?.join

/-- `w` is what wrapper `i` becomes, and `handed` its push that goes into the macro task queue. -/
def handOver (s : System ι) (i : ι) (w : Wrapper) : Option Nat → System ι
  | none => { s with wrapper := Function.update s.wrapper i w }
  | some n => {
      queue := MacroTasks.enqueue s.queue
      owner := s.owner ++ [some (i, n)]
      wrapper := Function.update s.wrapper i w }

def step (max page : Nat) (s : System ι) : Ev ι → Option (System ι)
  | .push i flush =>
    match s.queue.phase with
    | .looping _ => none
    | _ => some (handOver s i (push (s.wrapper i) flush).1 (push (s.wrapper i) flush).2)
  | .enqueueOther => do
    let queue ← MacroTasks.step max s.queue .enqueue
    some { s with queue, owner := s.owner ++ [none] }
  | .idle => do
    let queue ← MacroTasks.step max s.queue .idle
    some { s with queue }
  | .next => do
    let queue ← MacroTasks.step max s.queue .next
    some { s with queue }
  | .tick r =>
    match s.queue.phase with
    | .working _ t => do
      let (i, n) ← ownerOf s t
      let task ← (s.wrapper i).tasks[n]?
      match ← onWorkTick page (s.wrapper i) n task r with
      | (w, none) =>
        let queue ← MacroTasks.step max s.queue (.worked false)
        some { s with queue, wrapper := Function.update s.wrapper i w }
      | (w, some reply) =>
        let queue ← MacroTasks.step max s.queue (.worked true)
        some { s with queue, wrapper := Function.update s.wrapper i (onDone w n reply) }
    | _ => none
  | .tickOther finished =>
    match s.queue.phase with
    | .working _ t =>
      match ownerOf s t with
      | none => do
        let queue ← MacroTasks.step max s.queue (.worked finished)
        some { s with queue }
      | some _ => none
    | _ => none
  | .doneReturned =>
    match s.queue.phase with
    | .finishing _ t => do
      let s := match ownerOf s t with
        | some (i, _) => handOver s i (tryTriggerNextTask (s.wrapper i)).1 (tryTriggerNextTask (s.wrapper i)).2
        | none => s
      let queue ← MacroTasks.step max s.queue .doneReturned
      some { s with queue }
    | _ => none

def start (kind : ι → Kind) : System ι := { wrapper := fun i => { kind := kind i } }

/-! ## What a step does -/

inductive Moves (max page : Nat) (s : System ι) : System ι → Prop
  | push (i : ι) (flush : Int) : (∀ processed, s.queue.phase ≠ .looping processed) →
      Moves max page s (handOver s i (push (s.wrapper i) flush).1 (push (s.wrapper i) flush).2)
  | enqueueOther : (∀ processed, s.queue.phase ≠ .looping processed) →
      Moves max page s { s with queue := MacroTasks.enqueue s.queue, owner := s.owner ++ [none] }
  | loop (e : MacroTasks.Ev) (queue : MacroTaskQueue) : e = .idle ∨ e = .next → MacroTasks.step max s.queue e = some queue →
      Moves max page s { s with queue }
  | wait (processed t : Nat) (i : ι) (n : Nat) (task : ZlibTask) (r : LibResult) (w : Wrapper) : s.queue.phase = .working processed t →
      ownerOf s t = some (i, n) → (s.wrapper i).tasks[n]? = some task → onWorkTick page (s.wrapper i) n task r = some (w, none) →
      Moves max page s { s with
        queue := { s.queue with queue := s.queue.queue ++ [t], phase := .looping (processed + 1) }
        wrapper := Function.update s.wrapper i w }
  | answer (processed t : Nat) (i : ι) (n : Nat) (task : ZlibTask) (r : LibResult) (w : Wrapper) (reply : Reply) (queue : MacroTaskQueue) :
      s.queue.phase = .working processed t → ownerOf s t = some (i, n) → (s.wrapper i).tasks[n]? = some task →
      onWorkTick page (s.wrapper i) n task r = some (w, some reply) → MacroTasks.step max s.queue (.worked true) = some queue →
      Moves max page s { s with queue, wrapper := Function.update s.wrapper i (onDone w n reply) }
  | other (finished : Bool) (processed t : Nat) (queue : MacroTaskQueue) : s.queue.phase = .working processed t → ownerOf s t = none →
      MacroTasks.step max s.queue (.worked finished) = some queue → Moves max page s { s with queue }
  | returned (processed t : Nat) (i : ι) (n : Nat) (s' : System ι) : s.queue.phase = .finishing processed t → ownerOf s t = some (i, n) →
      s' = handOver s i (tryTriggerNextTask (s.wrapper i)).1 (tryTriggerNextTask (s.wrapper i)).2 →
      Moves max page s { s' with queue := { s'.queue with phase := .looping (processed + 1) } }
  | otherReturned (processed t : Nat) : s.queue.phase = .finishing processed t → ownerOf s t = none →
      Moves max page s { s with queue := { s.queue with phase := .looping (processed + 1) } }

variable {max page : Nat} {s s' : System ι} {e : Ev ι}

theorem handOver_phase (s : System ι) (i : ι) (w : Wrapper) (handed : Option Nat) :
    (handOver s i w handed).queue.phase = s.queue.phase := by
  cases handed <;> rfl

theorem step_moves (h : step max page s e = some s') : Moves max page s s' := by
  cases e with
  | push i flush =>
    simp only [step] at h
    split at h
    · cases h
    · next hp => cases h; exact .push i flush hp
  | enqueueOther =>
    simp only [step, bind_eq_bind, bind_eq_some_iff, Option.some.injEq] at h
    obtain ⟨queue, hq, rfl⟩ := h
    cases MacroTasks.step_moves hq with
    | enqueue hp => exact .enqueueOther hp
  | idle =>
    simp only [step, bind_eq_bind, bind_eq_some_iff, Option.some.injEq] at h
    obtain ⟨queue, hq, rfl⟩ := h
    exact .loop .idle queue (Or.inl rfl) hq
  | next =>
    simp only [step, bind_eq_bind, bind_eq_some_iff, Option.some.injEq] at h
    obtain ⟨queue, hq, rfl⟩ := h
    exact .loop .next queue (Or.inr rfl) hq
  | tick r =>
    simp only [step] at h
    split at h
    · next processed t hp =>
      simp only [bind_eq_bind, bind_eq_some_iff] at h
      obtain ⟨⟨i, n⟩, ho, task, ht, ⟨w, reply⟩, htick, h⟩ := h
      cases reply with
      | none =>
        simp only [bind_eq_some_iff, Option.some.injEq] at h
        obtain ⟨queue, hq, rfl⟩ := h
        cases MacroTasks.step_moves hq with
        | requeue processed t hp' =>
          cases hp.symm.trans hp'
          exact .wait processed t i n task r w hp ho ht htick
      | some reply =>
        simp only [bind_eq_some_iff, Option.some.injEq] at h
        obtain ⟨queue, hq, rfl⟩ := h
        exact .answer processed t i n task r w reply queue hp ho ht htick hq
    · cases h
  | tickOther finished =>
    simp only [step] at h
    split at h
    · next processed t hp =>
      split at h
      · next ho =>
        simp only [bind_eq_bind, bind_eq_some_iff, Option.some.injEq] at h
        obtain ⟨queue, hq, rfl⟩ := h
        exact .other finished processed t queue hp ho hq
      · cases h
    · cases h
  | doneReturned =>
    simp only [step] at h
    split at h
    · next processed t hp =>
      simp only [bind_eq_bind, bind_eq_some_iff, Option.some.injEq] at h
      obtain ⟨queue, hq, rfl⟩ := h
      split at hq
      · next i n ho =>
        cases MacroTasks.step_moves hq with
        | doneReturned processed' t' hp' =>
          rw [handOver_phase] at hp'
          cases hp.symm.trans hp'
          exact .returned processed t i n _ hp ho rfl
      · next ho =>
        cases MacroTasks.step_moves hq with
        | doneReturned processed' t' hp' =>
          cases hp.symm.trans hp'
          exact .otherReturned processed t hp ho
    · cases h

/-! ## The tasks of one wrapper -/

/-- The push of wrapper `i` that macro task `t` was made for. -/
def pushOf (owner : List (Option (ι × Nat))) (i : ι) (t : Nat) : Option Nat :=
  owner[t]?.join.bind fun x => if x.1 = i then some x.2 else none

/-- The wrapper's tasks in the macro task queue, the one that is being ticked first. -/
def lineOf (s : System ι) (i : ι) : List Nat := (s.queue.phase.current ++ s.queue.queue).filterMap (pushOf s.owner i)

/-- One of the wrapper's tasks is in `OnDone`. -/
def busyOf (s : System ι) (i : ι) : Bool :=
  match s.queue.phase with
  | .finishing _ t => (pushOf s.owner i t).isSome
  | _ => false

structure TasksOk (s : System ι) : Prop where
  tasks : MacroTasks.TasksOk s.queue
  handle : MacroTasks.HandleOk s.queue
  owners : s.owner.length = s.queue.enqueued
  finishing : ∀ processed t, s.queue.phase = .finishing processed t → t < s.queue.enqueued

omit [DecidableEq ι] in
theorem enqueue_step (hp : ∀ processed, s.queue.phase ≠ .looping processed) :
    MacroTasks.step max s.queue .enqueue = some (MacroTasks.enqueue s.queue) := by
  simp only [MacroTasks.step]

theorem loop_enqueued {q q' : MacroTaskQueue} {e : MacroTasks.Ev} (he : e ≠ .enqueue) (h : MacroTasks.step max q e = some q') :
    q'.enqueued = q.enqueued := by
  cases MacroTasks.step_moves h with
  | enqueue => exact absurd rfl he
  | _ => rfl

theorem loop_finishing {q q' : MacroTaskQueue} {e : MacroTasks.Ev} (hq : MacroTasks.TasksOk q)
    (hfin : ∀ processed t, q.phase = .finishing processed t → t < q.enqueued) (h : MacroTasks.step max q e = some q')
    {processed t : Nat} (hp : q'.phase = .finishing processed t) : t < q'.enqueued := by
  cases MacroTasks.step_moves h with
  | enqueue => exact Nat.lt_succ_of_lt (hfin processed t hp)
  | finish processed' t' hw =>
    cases hp
    exact hq.lt (mem_append_right _ (by rw [hw]; exact mem_singleton_self _))
  | _ => cases hp

omit [DecidableEq ι] in
theorem TasksOk.loop (h : TasksOk s) {e : MacroTasks.Ev} {queue : MacroTaskQueue}
    (hs : MacroTasks.step max s.queue e = some queue) (he : e ≠ .enqueue) (wrapper : ι → Wrapper) : TasksOk { s with queue, wrapper } :=
  ⟨MacroTasks.tasks_step h.tasks hs, MacroTasks.handle_step h.handle hs, h.owners.trans (loop_enqueued he hs).symm,
    fun _ _ hp => loop_finishing h.tasks h.finishing hs hp⟩

omit [DecidableEq ι] in
theorem TasksOk.enqueue (h : TasksOk s) (hp : ∀ processed, s.queue.phase ≠ .looping processed) (x : Option (ι × Nat))
    (wrapper : ι → Wrapper) : TasksOk { queue := MacroTasks.enqueue s.queue, owner := s.owner ++ [x], wrapper } := by
  have hs : MacroTasks.step 1 s.queue .enqueue = some (MacroTasks.enqueue s.queue) := enqueue_step hp
  refine ⟨MacroTasks.tasks_step h.tasks hs, MacroTasks.handle_step h.handle hs, ?_, fun _ _ hp => loop_finishing h.tasks h.finishing hs hp⟩
  simp [MacroTasks.enqueue, h.owners]

theorem TasksOk.handOver (h : TasksOk s) (hp : ∀ processed, s.queue.phase ≠ .looping processed) (i : ι) (w : Wrapper)
    (handed : Option Nat) : TasksOk (handOver s i w handed) := by
  cases handed with
  | none => exact ⟨h.tasks, h.handle, h.owners, h.finishing⟩
  | some n => exact h.enqueue hp _ _

theorem tasks_step (h : TasksOk s) (hs : step max page s e = some s') : TasksOk s' := by
  cases step_moves hs with
  | push i flush hp => exact h.handOver hp i _ _
  | enqueueOther hp => exact h.enqueue hp none _
  | loop e queue he hq => exact h.loop hq (by rcases he with rfl | rfl <;> simp) _
  | wait processed t i n task r w hp =>
    have hq : MacroTasks.step 1 s.queue (.worked false) =
        some { s.queue with queue := s.queue.queue ++ [t], phase := .looping (processed + 1) } := by
      simp [MacroTasks.step, hp]
    exact h.loop hq (by simp) _
  | answer processed t i n task r w reply queue hp ho ht htick hq => exact h.loop hq (by simp) _
  | other finished processed t queue hp ho hq => exact h.loop hq (by simp) _
  | returned processed t i n s1 hp ho he =>
    have h1 : TasksOk s1 := he ▸ h.handOver (by simp [hp]) i _ _
    have hp1 : s1.queue.phase = .finishing processed t := by rw [he, handOver_phase, hp]
    have hq : MacroTasks.step 1 s1.queue .doneReturned = some { s1.queue with phase := .looping (processed + 1) } := by
      simp [MacroTasks.step, hp1]
    exact h1.loop hq (by simp) _
  | otherReturned processed t hp ho =>
    have hq : MacroTasks.step 1 s.queue .doneReturned = some { s.queue with phase := .looping (processed + 1) } := by
      simp [MacroTasks.step, hp]
    exact h.loop hq (by simp) _

/-! ## Lines -/

theorem pushOf_self {t n : Nat} {i : ι} (ho : ownerOf s t = some (i, n)) : pushOf s.owner i t = some n := by
  rw [pushOf, show s.owner[t]?.join = some (i, n) from ho]
  exact if_pos rfl

theorem pushOf_other {t n : Nat} {i j : ι} (ho : ownerOf s t = some (i, n)) (hj : j ≠ i) : pushOf s.owner j t = none := by
  rw [pushOf, show s.owner[t]?.join = some (i, n) from ho]
  exact if_neg (Ne.symm hj)

theorem pushOf_none {t : Nat} (ho : ownerOf s t = none) (j : ι) : pushOf s.owner j t = none := by
  rw [pushOf, show s.owner[t]?.join = none from ho]
  rfl

theorem pushOf_kept {owner : List (Option (ι × Nat))} {t : Nat} (ht : t < owner.length) (x : Option (ι × Nat)) (j : ι) :
    pushOf (owner ++ [x]) j t = pushOf owner j t := by
  simp only [pushOf, getElem?_append_left ht]

omit [DecidableEq ι] in
theorem TasksOk.inLine_lt (h : TasksOk s) {t : Nat} (ht : t ∈ s.queue.phase.current ++ s.queue.queue) : t < s.owner.length := by
  rw [h.owners]
  exact h.tasks.lt (mem_append.mpr (mem_append.mp ht).symm)

theorem lineOf_enqueue (h : TasksOk s) (x : Option (ι × Nat)) (wrapper : ι → Wrapper) (j : ι) :
    lineOf { queue := MacroTasks.enqueue s.queue, owner := s.owner ++ [x], wrapper } j =
      lineOf s j ++ (x.bind fun x => if x.1 = j then some x.2 else none).toList := by
  have hkept := filterMap_congr fun t ht => pushOf_kept (h.inLine_lt ht) x j
  have hnew : pushOf (s.owner ++ [x]) j s.queue.enqueued = x.bind fun x => if x.1 = j then some x.2 else none := by
    simp [pushOf, ← h.owners]
  simp only [lineOf, MacroTasks.enqueue]
  rw [← append_assoc, filterMap_append, hkept]
  congr 1
  cases hx : (x.bind fun x => if x.1 = j then some x.2 else none) <;> simp [hnew, hx]

theorem busyOf_enqueue (h : TasksOk s) (x : Option (ι × Nat)) (wrapper : ι → Wrapper) (j : ι) :
    busyOf { queue := MacroTasks.enqueue s.queue, owner := s.owner ++ [x], wrapper } j = busyOf s j := by
  simp only [busyOf, MacroTasks.enqueue]
  split
  · next processed t hp => rw [pushOf_kept (h.owners ▸ h.finishing processed t hp)]
  · rfl

theorem lineOf_handOver (h : TasksOk s) (i : ι) (w : Wrapper) (handed : Option Nat) (j : ι) :
    lineOf (handOver s i w handed) j = lineOf s j ++ if j = i then handed.toList else [] := by
  cases handed with
  | none => simp [handOver, lineOf]
  | some n =>
    rw [handOver, lineOf_enqueue h]
    by_cases hj : j = i
    · simp [hj]
    · simp [hj, Ne.symm hj]

theorem busyOf_handOver (h : TasksOk s) (i : ι) (w : Wrapper) (handed : Option Nat) (j : ι) :
    busyOf (handOver s i w handed) j = busyOf s j := by
  cases handed with
  | none => rfl
  | some n => exact busyOf_enqueue h _ _ j

theorem handOver_wrapper (s : System ι) (i : ι) (w : Wrapper) (handed : Option Nat) :
    (handOver s i w handed).wrapper = Function.update s.wrapper i w := by
  cases handed <;> rfl

theorem loop_line {e : MacroTasks.Ev} {queue : MacroTaskQueue} (he : e = .idle ∨ e = .next)
    (hq : MacroTasks.step max s.queue e = some queue) (j : ι) :
    lineOf { s with queue } j = lineOf s j ∧ busyOf { s with queue } j = busyOf s j := by
  cases MacroTasks.step_moves hq with
  | idle hp => simp [lineOf, busyOf, hp, MacroTasks.Phase.current]
  | tick processed t q hp hlt hcons =>
    refine ⟨?_, by simp [busyOf, hp]⟩
    simp only [lineOf, hp, hcons, MacroTasks.Phase.current, nil_append, singleton_append]
  | stop processed hp => simp [lineOf, busyOf, hp, MacroTasks.Phase.current]
  | pause processed hp => simp [lineOf, busyOf, hp, MacroTasks.Phase.current]
  | _ => simp at he

/-! ## The wrappers -/

structure SystemOk (s : System ι) : Prop where
  tasks : TasksOk s
  each : ∀ i, WrapperOk (s.wrapper i) (lineOf s i) (busyOf s i)

theorem each_update {wrapper : ι → Wrapper} {line : ι → List Nat} {busy : ι → Bool} {i : ι} {w : Wrapper}
    (hi : WrapperOk w (line i) (busy i)) (hj : ∀ j, j ≠ i → WrapperOk (wrapper j) (line j) (busy j)) (j : ι) :
    WrapperOk (Function.update wrapper i w j) (line j) (busy j) := by
  by_cases h : j = i
  · subst h
    rw [Function.update_self]
    exact hi
  · rw [Function.update_of_ne h]
    exact hj j h

/-- While a task of wrapper `i` is being ticked, it is the first in the wrapper's line. -/
theorem SystemOk.ticked (h : SystemOk s) {processed t n : Nat} {i : ι} (hp : s.queue.phase = .working processed t)
    (ho : ownerOf s t = some (i, n)) : WrapperOk (s.wrapper i) (n :: s.queue.queue.filterMap (pushOf s.owner i)) false := by
  have hline : lineOf s i = n :: s.queue.queue.filterMap (pushOf s.owner i) := by
    simp [lineOf, hp, MacroTasks.Phase.current, pushOf_self ho]
  have hbusy : busyOf s i = false := by simp [busyOf, hp]
  have hi := h.each i
  rwa [hline, hbusy] at hi

theorem SystemOk.queued (h : SystemOk s) {processed t : Nat} {j : ι} (hp : s.queue.phase = .working processed t)
    (ho : pushOf s.owner j t = none) : WrapperOk (s.wrapper j) (s.queue.queue.filterMap (pushOf s.owner j)) false := by
  have hline : lineOf s j = s.queue.queue.filterMap (pushOf s.owner j) := by
    simp [lineOf, hp, MacroTasks.Phase.current, ho]
  have hbusy : busyOf s j = false := by simp [busyOf, hp]
  have hj := h.each j
  rwa [hline, hbusy] at hj

theorem requeued_line (s : System ι) (processed t : Nat) (wrapper : ι → Wrapper) (j : ι) :
    lineOf { s with queue := { s.queue with queue := s.queue.queue ++ [t], phase := .looping (processed + 1) }, wrapper } j =
      s.queue.queue.filterMap (pushOf s.owner j) ++ (pushOf s.owner j t).toList := by
  cases h : pushOf s.owner j t <;> simp [lineOf, MacroTasks.Phase.current, h]

theorem returned_line {processed t : Nat} (hp : s.queue.phase = .finishing processed t) (wrapper : ι → Wrapper) (j : ι) :
    lineOf { s with queue := { s.queue with phase := .looping (processed + 1) }, wrapper } j = lineOf s j := by
  simp [lineOf, hp, MacroTasks.Phase.current]

theorem wait_each (h : SystemOk s) {processed t n : Nat} {i : ι} (hp : s.queue.phase = .working processed t)
    (ho : ownerOf s t = some (i, n)) {task : ZlibTask} (ht : (s.wrapper i).tasks[n]? = some task) {r : LibResult} {w : Wrapper}
    (htick : onWorkTick page (s.wrapper i) n task r = some (w, none)) (j : ι) :
    WrapperOk (Function.update s.wrapper i w j)
      (s.queue.queue.filterMap (pushOf s.owner j) ++ (pushOf s.owner j t).toList) false := by
  obtain ⟨hw, hrest⟩ := tick_ok (h.ticked hp ho) ht htick
  refine @each_update _ _ s.wrapper (fun j => s.queue.queue.filterMap (pushOf s.owner j) ++ (pushOf s.owner j t).toList)
    (fun _ => false) i w ?_ (fun j hj => ?_) j
  · -- it is the only one of its wrapper, so that it keeps its place
    simp only [pushOf_self ho, hrest]
    rwa [hrest] at hw
  · simp only [pushOf_other ho hj, toList_none, append_nil]
    exact h.queued hp (pushOf_other ho hj)

theorem answer_each (h : SystemOk s) {processed t n : Nat} {i : ι} (hp : s.queue.phase = .working processed t)
    (ho : ownerOf s t = some (i, n)) {task : ZlibTask} (ht : (s.wrapper i).tasks[n]? = some task) {r : LibResult} {w : Wrapper}
    {reply : Reply} (htick : onWorkTick page (s.wrapper i) n task r = some (w, some reply)) (j : ι) :
    WrapperOk (Function.update s.wrapper i (onDone w n reply) j) (s.queue.queue.filterMap (pushOf s.owner j))
      (pushOf s.owner j t).isSome := by
  refine @each_update _ _ s.wrapper (fun j => s.queue.queue.filterMap (pushOf s.owner j)) (fun j => (pushOf s.owner j t).isSome) i _
    ?_ (fun j hj => ?_) j
  · simp only [pushOf_self ho, isSome_some]
    exact tick_ok (h.ticked hp ho) ht htick
  · simp only [pushOf_other ho hj, isSome_none]
    exact h.queued hp (pushOf_other ho hj)

theorem each_step (h : SystemOk s) (hs : step max page s e = some s') (j : ι) :
    WrapperOk (s'.wrapper j) (lineOf s' j) (busyOf s' j) := by
  cases step_moves hs with
  | push i flush hp =>
    rw [handOver_wrapper]
    refine each_update ?_ (fun j hj => ?_) j
    · rw [lineOf_handOver h.tasks, busyOf_handOver h.tasks, if_pos rfl]
      exact push_ok (h.each i) flush
    · rw [lineOf_handOver h.tasks, busyOf_handOver h.tasks, if_neg hj, append_nil]
      exact h.each j
  | enqueueOther hp =>
    rw [lineOf_enqueue h.tasks, busyOf_enqueue h.tasks]
    simpa using h.each j
  | loop e queue he hq =>
    obtain ⟨hl, hb⟩ := loop_line he hq j
    rw [hl, hb]
    exact h.each j
  | wait processed t i n task r w hp ho ht htick =>
    rw [requeued_line]
    exact wait_each h hp ho ht htick j
  | answer processed t i n task r w reply queue hp ho ht htick hq =>
    cases MacroTasks.step_moves hq with
    | finish processed' t' hp' =>
      cases hp.symm.trans hp'
      simpa [lineOf, busyOf, MacroTasks.Phase.current] using answer_each h hp ho ht htick j
  | other finished processed t queue hp ho hq =>
    have hj := h.queued hp (pushOf_none ho j)
    cases MacroTasks.step_moves hq with
    | finish processed' t' hp' =>
      cases hp.symm.trans hp'
      simpa [lineOf, busyOf, MacroTasks.Phase.current, pushOf_none ho] using hj
    | requeue processed' t' hp' =>
      cases hp.symm.trans hp'
      have hback := requeued_line s processed t s.wrapper j
      rw [pushOf_none ho, toList_none, append_nil] at hback
      rwa [hback]
  | returned processed t i n s1 hp ho he =>
    have hphase : s1.queue.phase = .finishing processed t := by rw [he, handOver_phase, hp]
    have hwrapper : s1.wrapper = Function.update s.wrapper i (tryTriggerNextTask (s.wrapper i)).1 := by rw [he, handOver_wrapper]
    simp only [hwrapper]
    refine each_update ?_ (fun j hj => ?_) j
    · have hi := h.each i
      rw [show busyOf s i = true by simp [busyOf, hp, pushOf_self ho]] at hi
      have hw := trigger_ok hi
      rw [returned_line hphase, he, lineOf_handOver h.tasks, if_pos rfl]
      exact hw
    · have hj' := h.each j
      rw [show busyOf s j = false by simp [busyOf, hp, pushOf_other ho hj]] at hj'
      rw [returned_line hphase, he, lineOf_handOver h.tasks, if_neg hj, append_nil]
      exact hj'
  | otherReturned processed t hp ho =>
    have hj := h.each j
    simpa [lineOf, busyOf, hp, MacroTasks.Phase.current, pushOf_none ho] using hj

theorem system_step (h : SystemOk s) (hs : step max page s e = some s') : SystemOk s' := ⟨tasks_step h.tasks hs, each_step h hs⟩

theorem system_start (kind : ι → Kind) : SystemOk (start kind) := by
  have hq := MacroTasks.start_ok 1
  exact ⟨⟨hq.tasks, hq.handle, rfl, nofun⟩, fun i => start_ok (kind i)⟩

/-! ## Whole runs -/

structure Serialized (w : Wrapper) : Prop where
  /-- the callbacks came in the order of the pushes, each once -/
  order : w.completed.map Prod.fst = List.range w.completed.length
  /-- the library is called for a push when all those before it have completed, and it has not -/
  calls : ∀ m completed produced, Touch.call m completed produced ∈ w.stream → completed = m
  bytes : ∀ m out, (m, Reply.bytes out) ∈ w.completed → out = producedFor m w.stream
  /-- errors come with the end of the stream, or after it -/
  errors : ∀ m message, (m, Reply.error message) ∈ w.completed → ∃ k ≤ m, Touch.close k ∈ w.stream
  ended : w.finished = true ∨ w.errored = true → ∃ m, Touch.close m ∈ w.stream
  /-- after the end the stream is not touched, and all that complete do so with an error -/
  closed : ∀ a m b, w.stream = a ++ Touch.close m :: b →
    b = [] ∧ ∀ k reply, (k, reply) ∈ w.completed → m < k → ∃ message, reply = .error message

theorem WrapperOk.serialized {w : Wrapper} {line : List Nat} {busy : Bool} (h : WrapperOk w line busy) : Serialized w where
  order := h.stream.numbered
  calls m completed produced hm := (h.stream.calls m completed produced hm).1
  bytes := h.stream.bytes
  errors := h.errors
  ended hf := h.stream.ends (by rw [h.stream.flags]; simpa using hf)
  closed := h.stream.closed

/-- Some push is not answered: one of the wrapper's tasks is in the macro task queue, or in `OnDone`. -/
theorem WrapperOk.awaited {w : Wrapper} {line : List Nat} {busy : Bool} (h : WrapperOk w line busy)
    (hlt : w.completed.length < w.tasks.length) : line ≠ [] ∨ busy = true := by
  by_cases hl : line = []
  · refine h.line.going fun hq => ?_
    have := h.line.length
    rw [hl, hq, length_nil] at this
    omega
  · exact Or.inl hl

/-- While tasks are in the queue or in `OnDone`, the idle handle is active. -/
theorem TasksOk.active (h : TasksOk s) {i : ι} (hb : lineOf s i ≠ [] ∨ busyOf s i = true) : s.queue.idle = true := by
  by_cases hp : s.queue.phase = .outside
  · refine (h.handle.between hp).mpr fun hq => ?_
    simp [lineOf, busyOf, hp, hq, MacroTasks.Phase.current] at hb
  · exact h.handle.inside hp

/-- Wrappers of either kind, between tasks of others, and whatever the library answers: each
    push is called back once and in order, or the loop has work and a task of the wrapper is
    part of it. -/
theorem pushes_serialized (max page : Nat) (kind : ι → Kind) {es : List (Ev ι)} {t : System ι}
    (hr : run (step max page) (start kind) es = some t) (i : ι) :
    Serialized (t.wrapper i) ∧
      ((t.wrapper i).completed.length = (t.wrapper i).tasks.length ∨ t.queue.idle = true ∧ (lineOf t i ≠ [] ∨ busyOf t i = true)) := by
  have hok : SystemOk t :=
    run_inv (Q := fun _ _ => True) (fun s e s' h _ hs => system_step h hs) (system_start kind) (along_true _ _) hr
  refine ⟨(hok.each i).serialized, ?_⟩
  have hlen := (hok.each i).line.length
  rcases Nat.lt_or_ge (t.wrapper i).completed.length (t.wrapper i).tasks.length with hlt | hge
  · have hwait := (hok.each i).awaited hlt
    exact Or.inr ⟨hok.tasks.active hwait, hwait⟩
  · exact Or.inl (by omega)

/-- An inflating stream ends while a push waits, and its callback pushes twice more; a
    deflating stream needs two ticks in between. -/
def endingRun : List (Ev Bool) :=
  [.push false 0, .push false 0, .push true 0, .idle,
    .next, .tick { status := .streamEnd, produced := [7] }, .push false 0, .push false 0, .doneReturned,
    .next, .tick { status := .ok, produced := [1, 2] },
    .next, .tick { status := .ok, produced := [] }, .doneReturned,
    .next, .tick { status := .ok, produced := [] }, .doneReturned,
    .next, .tick { status := .ok, produced := [3] }, .doneReturned,
    .next, .tick { status := .ok, produced := [] }, .doneReturned]

def endingKind (i : Bool) : Kind := if i then .zip else .unzip

theorem pushes_serialized_ending :
    ∃ t, run (step 100 2) (start endingKind) endingRun = some t ∧ Serialized (t.wrapper false) ∧ Serialized (t.wrapper true) ∧
      (t.wrapper false).completed = [(0, .bytes [7]), (1, .error (alreadyDone .unzip)), (2, .error (alreadyDone .unzip)),
        (3, .error (alreadyDone .unzip))] ∧
      (t.wrapper true).completed = [(0, .bytes [1, 2, 3])] := by
  obtain ⟨t, hr, hfalse, htrue⟩ : ∃ t, run (step 100 2) (start endingKind) endingRun = some t ∧
      (t.wrapper false).completed = [(0, .bytes [7]), (1, .error (alreadyDone .unzip)), (2, .error (alreadyDone .unzip)),
        (3, .error (alreadyDone .unzip))] ∧
      (t.wrapper true).completed = [(0, .bytes [1, 2, 3])] := ⟨_, rfl, rfl, rfl⟩
  exact ⟨t, hr, (pushes_serialized 100 2 endingKind hr false).1, (pushes_serialized 100 2 endingKind hr true).1, hfalse, htrue⟩

end Aworker.Zlib
