/-
  Aworker.Loop.Timers — `setTimeout`, `setInterval`, `setImmediate` and what clears them
  (lib/timer.js; src/binding/internal/aworker_timers.cc, aworker_immediate.cc).

  A timer or an immediate is an object, its number is its key in a map, and it owns a native
  handle. The handle fires as long as it is active: a timer's once or, with a repeat, again and
  again, an immediate's until it is stopped. `DESTROY` takes the object out of the map and
  stops the handle. A callback may call all of these, also on its own object, and it may throw:
  what comes after it stands in a `finally`.

  `clearTimeout` and `clearInterval` are one function. `clearImmediate` wants to look a number
  up as they do, but its test is `!id instanceof Immediate`, which is `(!id) instanceof
  Immediate` and never true: anything but an Immediate throws.

  (1) `timer_registry_iff`: the maps hold exactly what was scheduled and has neither finished
      nor been cleared, a callback that runs once does so at most once, and none runs after its
      clear call returned; and no clear call throws, exactly if `clearImmediate` is given
      nothing but Immediate objects. `clear_throws` is a run with a number.
-/

import Mathlib
import Aworker.Lib.Run

namespace Aworker.Timers

open Aworker.Lib List Option Function

/-! ## Timers and immediates -/

inductive Kind where
  | timer
  | immediate
  deriving DecidableEq

/-- An object, known by its `_id`. -/
abbrev Ref := Kind × Nat

structure Item where
  /-- made by `setInterval`; the repeat of the native timer -/
  repeats : Bool := false
  /-- `_loop` -/
  loop : Bool := false
  /-- `_group` is not null -/
  grouped : Bool := true
  destroyed : Bool := false
  /-- the native handle is active -/
  active : Bool := true

inductive Arg where
  | object (r : Ref)
  | number (n : Nat)

/-- A clear call for `ref` that returned, and how many callbacks had been run. -/
structure Cleared where
  ref : Ref
  after : Nat

structure Registry where
  /-- `seq` and `immediateSeq` -/
  made : Kind → Nat := fun _ => 0
  item : Ref → Item := fun _ => {}
  /-- the keys of `TIMERS` and `immediateMap` -/
  map : Kind → List Nat := fun _ => []
  /-- the object whose callback is running -/
  running : Option Ref := none
  ran : List Ref := []
  /-- callbacks that run once, and have returned or thrown -/
  finished : List Ref := []
  cleared : List Cleared := []
  /-- the arguments of the clear calls that threw -/
  threw : List Arg := []

inductive Ev where
  | setTimer (loop : Bool)
  | setImmediate
  /-- `clearTimeout` or `clearInterval` -/
  | clearTimer (arg : Arg)
  | clearImmediate (arg : Arg)
  /-- the native handle fires -/
  | fire (r : Ref)
  /-- the callback returns or throws -/
  | finished

def schedule (s : Registry) (k : Kind) (repeats : Bool) : Registry :=
  { s with
    made := Function.update s.made k (s.made k + 1)
    item := Function.update s.item (k, s.made k) { repeats, loop := repeats }
    map := Function.update s.map k (s.map k ++ [s.made k]) }

/-- `DESTROY` and `IMMEDIATE_DESTROY`; an Immediate has no `_group` and no `_loop`. -/
def destroy (s : Registry) (r : Ref) : Registry :=
  if (s.item r).destroyed then s
  else if r.2 ∉ s.map r.1 then s
  else
    { s with
      map := Function.update s.map r.1 ((s.map r.1).erase r.2)
      item := Function.update s.item r { s.item r with loop := false, grouped := false, destroyed := true, active := false } }

/-- The object a `clearTimer` call destroys. -/
def clearTimer (s : Registry) : Arg → Registry
  | .object (.timer, i) => if (s.item (.timer, i)).grouped then destroy s (.timer, i) else s
  | .object (.immediate, _) => s
  | .number n => if n ∈ s.map .timer then destroy s (.timer, n) else s

/-- Objects are there once they were made; numbers may be any. -/
def Arg.known (s : Registry) : Arg → Bool
  | .object (k, i) => i < s.made k
  | .number _ => true

/-- The timers an argument of `clearTimeout` or `clearInterval` stands for. -/
def timerOf (s : Registry) : Arg → List Ref
  | .object (.timer, i) => [(.timer, i)]
  | .object (.immediate, _) => []
  | .number n => if n < s.made .timer then [(.timer, n)] else []

/-- An immediate's native callback stops the handle after `onimmediate`. -/
def stop (s : Registry) (r : Ref) : Registry := { s with item := Function.update s.item r { s.item r with active := false } }

/-- The `finally` of `#ontimeout` and `#onimmediate`, and what the native callback does then. -/
def afterCallback (s : Registry) (r : Ref) : Registry :=
  match r.1 with
  | .timer => if (s.item r).loop then s else destroy s r
  | .immediate => stop (destroy s r) r

def step (s : Registry) : Ev → Option Registry
  | .setTimer loop => some (schedule s .timer loop)
  | .setImmediate => some (schedule s .immediate false)
  | .clearTimer arg =>
    if arg.known s then
      some { clearTimer s arg with cleared := s.cleared ++ (timerOf s arg).map fun ref => { ref, after := s.ran.length } }
    else none
  | .clearImmediate arg =>
    if arg.known s then
      match arg with
      | .object (.immediate, i) =>
        some { destroy s (.immediate, i) with cleared := s.cleared ++ [{ ref := (.immediate, i), after := s.ran.length }] }
      | arg => some { s with threw := s.threw ++ [arg] }
    else none
  | .fire r =>
    if s.running = none ∧ r.2 < s.made r.1 ∧ (s.item r).active then
      some { s with
        running := some r
        ran := if (s.item r).destroyed then s.ran else s.ran ++ [r]
        item := Function.update s.item r { s.item r with active := match r.1 with
          | .timer => (s.item r).repeats
          | .immediate => true } }
    else none
  | .finished =>
    match s.running with
    | some r =>
      some { afterCallback s r with
        running := none
        finished := if (s.item r).repeats then s.finished else s.finished ++ [r] }
    | none => none

/-! ## What the registry keeps -/

def Known (s : Registry) (r : Ref) : Prop := r.2 < s.made r.1

def clearedRefs (s : Registry) : List Ref := s.cleared.map (·.ref)

structure ItemOk (s : Registry) (r : Ref) : Prop where
  alive : (s.item r).destroyed = false → (s.item r).grouped = true ∧ (s.item r).loop = (s.item r).repeats
  dead : (s.item r).destroyed = true → (s.item r).grouped = false ∧ (s.item r).loop = false ∧ (s.item r).active = false
  immediate : r.1 = .immediate → (s.item r).repeats = false
  why : (s.item r).destroyed = true ↔ r ∈ s.finished ∨ r ∈ clearedRefs s
  once : (s.item r).repeats = false → s.ran.count r ≤ 1 ∧ ((s.item r).active = true → s.running ≠ some r → s.ran.count r = 0)

structure Inv (s : Registry) : Prop where
  map : ∀ k i, i ∈ s.map k ↔ Known s (k, i) ∧ (s.item (k, i)).destroyed = false
  nodup : ∀ k, (s.map k).Nodup
  item : ∀ r, Known s r → ItemOk s r
  known : ∀ r, r ∈ s.ran ∨ r ∈ s.finished ∨ r ∈ clearedRefs s ∨ s.running = some r → Known s r
  after : ∀ c ∈ s.cleared, c.after ≤ s.ran.length ∧ c.ref ∉ s.ran.drop c.after

variable {s s' : Registry} {r : Ref}

theorem ItemOk.frame (h : ItemOk s r) (hitem : s'.item r = s.item r) (hran : s'.ran.count r = s.ran.count r)
    (hwhy : r ∈ s'.finished ∨ r ∈ clearedRefs s' ↔ r ∈ s.finished ∨ r ∈ clearedRefs s)
    (hrunning : s'.running ≠ some r → s.running ≠ some r) : ItemOk s' r := by
  refine ⟨?_, ?_, ?_, ?_, ?_⟩
  · rw [hitem]; exact h.alive
  · rw [hitem]; exact h.dead
  · rw [hitem]; exact h.immediate
  · rw [hitem, hwhy]; exact h.why
  · rw [hitem, hran]
    exact fun hrep => ⟨(h.once hrep).1, fun hact hne => (h.once hrep).2 hact (hrunning hne)⟩

/-- `_loop` stays what it was made with until `DESTROY`. -/
theorem ItemOk.loop_iff (h : ItemOk s r) : (s.item r).loop = true ↔ (s.item r).destroyed = false ∧ (s.item r).repeats = true := by
  cases hd : (s.item r).destroyed with
  | true => simp [(h.dead hd).2.1]
  | false => simp [(h.alive hd).2]

theorem ItemOk.of_active (h : ItemOk s r) (hact : (s.item r).active = true) : (s.item r).destroyed = false := by
  rw [← Bool.not_eq_true]
  exact fun hd => Bool.false_ne_true ((h.dead hd).2.2.symm.trans hact)

theorem start_inv : Inv {} where
  map k i := by simp [Known]
  nodup _ := nodup_nil
  item r h := absurd h (Nat.not_lt_zero _)
  known r h := by simp [clearedRefs] at h
  after := nofun

/-! ## Scheduling -/

theorem schedule_known (s : Registry) (k : Kind) (repeats : Bool) (x : Ref) :
    Known (schedule s k repeats) x ↔ Known s x ∨ x = (k, s.made k) := by
  obtain ⟨k', i⟩ := x
  by_cases hk : k' = k
  · subst hk
    simp only [Known, schedule, update_self, Prod.mk.injEq, true_and]
    omega
  · simp [Known, schedule, hk]

theorem schedule_inv (h : Inv s) {k : Kind} {repeats : Bool} (hk : k = .immediate → repeats = false) :
    Inv (schedule s k repeats) := by
  have hnew : ¬Known s (k, s.made k) := Nat.lt_irrefl _
  have hitem : (schedule s k repeats).item (k, s.made k) = { repeats, loop := repeats } := by simp [schedule]
  have hold : ∀ x, Known s x → (schedule s k repeats).item x = s.item x := by
    intro x hx
    have hne : x ≠ (k, s.made k) := fun he => hnew (he ▸ hx)
    simp [schedule, update_of_ne hne]
  have hmap : ∀ k' i, i ∈ (schedule s k repeats).map k' ↔ i ∈ s.map k' ∨ (k', i) = (k, s.made k) := by
    intro k' i
    by_cases he : k' = k
    · subst he
      simp [schedule]
    · simp [schedule, he]
  refine ⟨fun k' i => ?_, fun k' => ?_, fun x hx => ?_, fun x hx => ?_, h.after⟩
  · rw [hmap, schedule_known, h.map]
    constructor
    · rintro (⟨hkn, hd⟩ | he)
      · exact ⟨Or.inl hkn, by rw [hold _ hkn]; exact hd⟩
      · exact ⟨Or.inr he, by rw [he, hitem]⟩
    · rintro ⟨hkn | he, hd⟩
      · exact Or.inl ⟨hkn, by rw [hold _ hkn] at hd; exact hd⟩
      · exact Or.inr he
  · by_cases he : k' = k
    · subst he
      simp only [schedule, update_self]
      refine nodup_append.mpr ⟨h.nodup k', nodup_singleton _, fun i hi j hj he => ?_⟩
      rw [mem_singleton.mp hj] at he
      exact hnew (he ▸ ((h.map k' i).mp hi).1)
    · simp only [schedule, update_of_ne he]
      exact h.nodup k'
  · rcases (schedule_known s k repeats x).mp hx with hx | rfl
    · exact (h.item x hx).frame (hold x hx) rfl Iff.rfl id
    · -- nothing has happened to it yet
      have hfresh : (k, s.made k) ∉ s.ran ∧ (k, s.made k) ∉ s.finished ∧ (k, s.made k) ∉ clearedRefs s :=
        ⟨fun hm => hnew (h.known _ (Or.inl hm)), fun hm => hnew (h.known _ (Or.inr (Or.inl hm))),
          fun hm => hnew (h.known _ (Or.inr (Or.inr (Or.inl hm))))⟩
      have hcount : s.ran.count (k, s.made k) = 0 := count_eq_zero.mpr hfresh.1
      refine ⟨?_, ?_, ?_, ?_, ?_⟩
      · rw [hitem]; exact fun _ => ⟨rfl, rfl⟩
      · rw [hitem]; exact nofun
      · rw [hitem]; exact hk
      · rw [hitem]; exact iff_of_false Bool.false_ne_true fun hm => hm.elim hfresh.2.1 hfresh.2.2
      · exact fun _ => ⟨by rw [show (schedule s k repeats).ran = s.ran from rfl, hcount]; exact Nat.zero_le _, fun _ _ => hcount⟩
  · exact (schedule_known s k repeats x).mpr (Or.inl (h.known x hx))

/-! ## Destroying -/

/-- What `DESTROY` leaves of an object. -/
def Item.dead (o : Item) : Item := { o with loop := false, grouped := false, destroyed := true, active := false }

theorem ItemOk.dead_eq (h : ItemOk s r) (hd : (s.item r).destroyed = true) : (s.item r).dead = s.item r := by
  obtain ⟨hg, hl, ha⟩ := h.dead hd
  cases ho : s.item r with
  | mk repeats loop grouped destroyed active =>
    rw [ho] at hd hg hl ha
    simp_all [Item.dead]

theorem ItemOk.of_dead {o : Item} (hitem : s.item r = o.dead) (himm : r.1 = .immediate → o.repeats = false)
    (hwhy : r ∈ s.finished ∨ r ∈ clearedRefs s) (hran : o.repeats = false → s.ran.count r ≤ 1) : ItemOk s r := by
  refine ⟨?_, ?_, ?_, ?_, ?_⟩ <;> rw [hitem]
  · exact nofun
  · exact fun _ => ⟨rfl, rfl, rfl⟩
  · exact himm
  · exact iff_of_true rfl hwhy
  · exact fun hrep => ⟨hran hrep, nofun⟩

/-- What `destroy` does to an object that was made: nothing if it is destroyed. -/
theorem destroy_eq (h : Inv s) (hr : Known s r) :
    destroy s r = { s with
      map := Function.update s.map r.1 ((s.map r.1).erase r.2)
      item := Function.update s.item r (s.item r).dead } := by
  unfold destroy
  cases hd : (s.item r).destroyed with
  | true =>
    have hm : r.2 ∉ s.map r.1 := fun hm => Bool.false_ne_true (((h.map r.1 r.2).mp hm).2.symm.trans hd)
    rw [(h.item r hr).dead_eq hd, erase_of_not_mem hm]
    simp
  | false =>
    have hm : r.2 ∈ s.map r.1 := (h.map r.1 r.2).mpr ⟨hr, hd⟩
    simp [hm, Item.dead]

theorem mem_erase_map (h : Inv s) (r : Ref) (k : Kind) (i : Nat) :
    i ∈ Function.update s.map r.1 ((s.map r.1).erase r.2) k ↔ i ∈ s.map k ∧ (k, i) ≠ r := by
  obtain ⟨k', j⟩ := r
  by_cases hk : k = k'
  · subst hk
    simp [(h.nodup k).mem_erase_iff, and_comm]
  · simp [hk]

/-- `r` is destroyed: it has finished (`F`) or is cleared (`C`). Its callback may be the one that has returned. -/
def retire (s : Registry) (r : Ref) (F : List Ref) (C : List Cleared) (running : Option Ref) : Registry :=
  { s with
    map := Function.update s.map r.1 ((s.map r.1).erase r.2)
    item := Function.update s.item r (s.item r).dead
    finished := s.finished ++ F
    cleared := s.cleared ++ C
    running }

section Retire

variable {F : List Ref} {C : List Cleared} {running : Option Ref}

theorem retire_refs (s : Registry) (r : Ref) : clearedRefs (retire s r F C running) = clearedRefs s ++ C.map (·.ref) :=
  map_append

theorem retire_map (h : Inv s) (k : Kind) (i : Nat) :
    i ∈ (retire s r F C running).map k ↔ Known s (k, i) ∧ ((retire s r F C running).item (k, i)).destroyed = false := by
  show i ∈ Function.update s.map r.1 _ k ↔ _ ∧ (Function.update s.item r _ (k, i)).destroyed = false
  rw [mem_erase_map h, h.map]
  by_cases he : (k, i) = r
  · simp [he, Item.dead]
  · simp [he]

theorem retire_nodup (h : Inv s) (k : Kind) : ((retire s r F C running).map k).Nodup := by
  show (Function.update s.map r.1 _ k).Nodup
  by_cases hk : k = r.1
  · rw [hk, update_self]
    exact (h.nodup _).erase _
  · rw [update_of_ne hk]
    exact h.nodup k

theorem retire_self (h : Inv s) (hr : Known s r) (hwhy : r ∈ F ∨ r ∈ C.map (·.ref) ∨ (s.item r).destroyed = true) :
    ItemOk (retire s r F C running) r := by
  have ok := h.item r hr
  refine ItemOk.of_dead (o := s.item r) (update_self ..) ok.immediate ?_ fun hrep => (ok.once hrep).1
  rw [retire_refs]
  rcases hwhy with hm | hm | hd
  · exact Or.inl (mem_append_right _ hm)
  · exact Or.inr (mem_append_right _ hm)
  · exact (ok.why.mp hd).imp (mem_append_left _) (mem_append_left _)

theorem retire_other (h : Inv s) {x : Ref} (hx : Known s x) (hne : x ≠ r) (hF : ∀ x ∈ F, x = r) (hC : ∀ x ∈ C.map (·.ref), x = r)
    (hrunning : running = s.running ∨ running = none ∧ s.running = some r) : ItemOk (retire s r F C running) x := by
  refine (h.item x hx).frame (update_of_ne hne ..) rfl ?_ fun hidle => ?_
  · rw [retire_refs]
    show x ∈ s.finished ++ F ∨ _ ↔ _
    rw [mem_append, mem_append]
    exact or_congr (or_iff_left fun hm => hne (hF x hm)) (or_iff_left fun hm => hne (hC x hm))
  · rcases hrunning with hs | ⟨-, hs⟩
    · rw [← hs]; exact hidle
    · rw [hs]; exact fun heq => hne (Option.some.inj heq).symm

theorem retire_known (h : Inv s) (hr : Known s r) (hF : ∀ x ∈ F, x = r) (hC : ∀ x ∈ C.map (·.ref), x = r)
    (hrunning : running = s.running ∨ running = none ∧ s.running = some r) {x : Ref}
    (hx : x ∈ s.ran ∨ x ∈ s.finished ++ F ∨ x ∈ clearedRefs s ++ C.map (·.ref) ∨ running = some x) : Known s x := by
  rcases hx with hx | hx | hx | hx
  · exact h.known x (Or.inl hx)
  · rcases mem_append.mp hx with hx | hx
    · exact h.known x (Or.inr (Or.inl hx))
    · exact hF x hx ▸ hr
  · rcases mem_append.mp hx with hx | hx
    · exact h.known x (Or.inr (Or.inr (Or.inl hx)))
    · exact hC x hx ▸ hr
  · rcases hrunning with hs | ⟨hs, -⟩
    · exact h.known x (Or.inr (Or.inr (Or.inr (hs ▸ hx))))
    · rw [hs] at hx; cases hx

theorem retire_inv (h : Inv s) (hr : Known s r) (hF : ∀ x ∈ F, x = r) (hC : ∀ c ∈ C, c.ref = r ∧ c.after = s.ran.length)
    (hwhy : r ∈ F ∨ r ∈ C.map (·.ref) ∨ (s.item r).destroyed = true)
    (hrunning : running = s.running ∨ running = none ∧ s.running = some r) : Inv (retire s r F C running) := by
  have hCr : ∀ x ∈ C.map (·.ref), x = r := by
    intro x hx
    obtain ⟨c, hc, rfl⟩ := List.mem_map.mp hx
    exact (hC c hc).1
  refine ⟨retire_map h, retire_nodup h, fun x hx => ?_, fun x hx => ?_, fun c hc => ?_⟩
  · by_cases he : x = r
    · subst he
      exact retire_self h hr hwhy
    · exact retire_other h hx he hF hCr hrunning
  · rw [retire_refs] at hx
    exact retire_known h hr hF hCr hrunning hx
  · rcases mem_append.mp hc with hc | hc
    · exact h.after c hc
    · obtain ⟨-, ha⟩ := hC c hc
      show c.after ≤ s.ran.length ∧ c.ref ∉ s.ran.drop c.after
      rw [ha, drop_length]
      exact ⟨le_rfl, not_mem_nil⟩

end Retire

/-! ## Callbacks -/

theorem fire_inv (h : Inv s) (hr : Known s r) (hnone : s.running = none) (hact : (s.item r).active = true) :
    Inv { s with
      running := some r
      ran := if (s.item r).destroyed then s.ran else s.ran ++ [r]
      item := Function.update s.item r { s.item r with active := match r.1 with
        | .timer => (s.item r).repeats
        | .immediate => true } } := by
  have ok := h.item r hr
  have hd : (s.item r).destroyed = false := ok.of_active hact
  have hnot : r ∉ clearedRefs s := fun hm => Bool.false_ne_true (hd.symm.trans (ok.why.mpr (Or.inr hm)))
  simp only [hd, Bool.false_eq_true, if_false]
  refine ⟨fun k i => ?_, h.nodup, fun x hx => ?_, fun x hx => ?_, fun c hc => ?_⟩
  · show i ∈ s.map k ↔ Known s (k, i) ∧ (Function.update s.item r _ (k, i)).destroyed = false
    rw [h.map]
    by_cases he : (k, i) = r
    · simp [he, hd]
    · simp [he]
  · have hx : Known s x := hx
    by_cases he : x = r
    · subst he
      refine ⟨?_, ?_, ?_, ?_, ?_⟩ <;> simp only [update_self]
      · exact fun _ => ok.alive hd
      · exact nofun
      · exact ok.immediate
      · exact iff_of_false Bool.false_ne_true fun hm => Bool.false_ne_true (hd.symm.trans (ok.why.mpr hm))
      · intro hrep
        have hzero := (ok.once hrep).2 hact (by rw [hnone]; exact nofun)
        refine ⟨?_, fun _ hne => absurd rfl hne⟩
        rw [count_append, hzero]
        simp
    · refine (h.item x hx).frame (update_of_ne he ..) ?_ Iff.rfl fun _ => by rw [hnone]; exact nofun
      rw [count_append, count_eq_zero.mpr fun hm => he (mem_singleton.mp hm), Nat.add_zero]
  · show Known s x
    rcases hx with hx | hx | hx | hx
    · rcases mem_append.mp hx with hx | hx
      · exact h.known x (Or.inl hx)
      · exact mem_singleton.mp hx ▸ hr
    · exact h.known x (Or.inr (Or.inl hx))
    · exact h.known x (Or.inr (Or.inr (Or.inl hx)))
    · exact Option.some.inj hx ▸ hr
  · obtain ⟨hle, hnm⟩ := h.after c hc
    refine ⟨?_, ?_⟩
    · rw [length_append]
      exact Nat.le_add_right_of_le hle
    · rw [drop_append_of_le_length hle, mem_append, not_or]
      refine ⟨hnm, fun hm => hnot ?_⟩
      rw [← mem_singleton.mp hm]
      exact List.mem_map.mpr ⟨c, hc, rfl⟩

/-- What `onimmediate` destroyed has no active handle to stop. -/
theorem stop_destroy (h : Inv s) (hr : Known s r) : stop (destroy s r) r = destroy s r := by
  rw [destroy_eq h hr]
  simp [stop, Item.dead]

theorem idle_inv (h : Inv s) (hrep : ∀ r, s.running = some r → (s.item r).repeats = true) : Inv { s with running := none } where
  map := h.map
  nodup := h.nodup
  item x hx := by
    have ok := h.item x hx
    refine ⟨ok.alive, ok.dead, ok.immediate, ok.why, fun hone => ⟨(ok.once hone).1, fun hact _ => (ok.once hone).2 hact ?_⟩⟩
    exact fun hx => Bool.false_ne_true (hone.symm.trans (hrep x hx))
  known x hx := h.known x (hx.imp_right (Or.imp_right (Or.imp_right nofun)))
  after := h.after

theorem finished_inv (h : Inv s) (hrun : s.running = some r) :
    Inv { afterCallback s r with
      running := none
      finished := if (s.item r).repeats then s.finished else s.finished ++ [r] } := by
  have hr : Known s r := h.known r (Or.inr (Or.inr (Or.inr hrun)))
  have ok := h.item r hr
  have hgone := fun {F : List Ref} (hF : ∀ x ∈ F, x = r) hwhy =>
    retire_inv (C := []) h hr hF nofun hwhy (Or.inr ⟨rfl, hrun⟩)
  simp only [retire, append_nil] at hgone
  have honce : Inv { destroy s r with running := none, finished := s.finished ++ [r] } := by
    rw [destroy_eq h hr]
    exact hgone (fun x hx => mem_singleton.mp hx) (Or.inl (mem_singleton_self r))
  unfold afterCallback
  cases hk : r.1 with
  | timer =>
    cases hl : (s.item r).loop with
    | true =>
      have hrep : (s.item r).repeats = true := (ok.loop_iff.mp hl).2
      simp only [hrep, if_true]
      exact idle_inv h fun x hx => by rw [hrun] at hx; exact Option.some.inj hx ▸ hrep
    | false =>
      cases hrep : (s.item r).repeats with
      | false => simpa using honce
      | true =>
        -- the interval was cleared in its own callback
        have hd : (s.item r).destroyed = true := by
          rw [← Bool.not_eq_false]
          exact fun hd => Bool.false_ne_true (hl.symm.trans (ok.loop_iff.mpr ⟨hd, hrep⟩))
        have := hgone (F := []) nofun (Or.inr (Or.inr hd))
        simp only [append_nil] at this
        simp only [Bool.false_eq_true, if_false, if_true]
        rw [destroy_eq h hr]
        exact this
  | immediate =>
    have hrep := ok.immediate hk
    simp only [hrep, Bool.false_eq_true, if_false]
    rw [stop_destroy h hr]
    exact honce

/-! ## Clear calls -/

theorem clear_inv (h : Inv s) (hr : Known s r) :
    Inv { destroy s r with cleared := s.cleared ++ [{ ref := r, after := s.ran.length }] } := by
  have hgone := retire_inv (F := []) (C := [{ ref := r, after := s.ran.length }]) h hr nofun
    (fun c hc => by rw [mem_singleton.mp hc]; exact ⟨rfl, rfl⟩) (Or.inr (Or.inl (mem_singleton_self r))) (Or.inl rfl)
  rw [retire, append_nil] at hgone
  rw [destroy_eq h hr]
  exact hgone

/-- The tests before `id[DESTROY]()` keep nothing from being destroyed. -/
theorem clearTimer_object (h : Inv s) {i : Nat} (hr : Known s (.timer, i)) :
    clearTimer s (.object (.timer, i)) = destroy s (.timer, i) := by
  simp only [clearTimer]
  split_ifs with hg
  · rfl
  · have hd : (s.item (.timer, i)).destroyed = true := by
      cases hd : (s.item (.timer, i)).destroyed with
      | true => rfl
      | false => exact absurd ((h.item _ hr).alive hd).1 hg
    simp [destroy, hd]

theorem clearTimer_number (s : Registry) (n : Nat) : clearTimer s (.number n) = destroy s (.timer, n) := by
  simp only [clearTimer]
  split_ifs with hm
  · rfl
  · simp [destroy, hm]

theorem clearTimer_inv (h : Inv s) {arg : Arg} (hk : arg.known s = true) :
    Inv { clearTimer s arg with cleared := s.cleared ++ (timerOf s arg).map fun ref => { ref, after := s.ran.length } } := by
  match arg with
  | .object (.timer, i) =>
    have hr : i < s.made .timer := of_decide_eq_true hk
    rw [clearTimer_object h hr]
    exact clear_inv h hr
  | .object (.immediate, i) =>
    simp only [clearTimer, timerOf, map_nil, append_nil]
    exact h
  | .number n =>
    by_cases hn : n < s.made .timer
    · simp only [timerOf, hn, if_true, map_cons, map_nil]
      rw [clearTimer_number]
      exact clear_inv h hn
    · -- not an id
      have hm : n ∉ s.map .timer := fun hm => hn ((h.map .timer n).mp hm).1
      simp only [clearTimer, timerOf, hn, hm, if_false, map_nil, append_nil]
      exact h

/-! ## Every run -/

theorem step_inv {e : Ev} (h : Inv s) (hs : step s e = some s') : Inv s' := by
  cases e with
  | setTimer loop =>
    obtain rfl := Option.some.inj hs
    exact schedule_inv h nofun
  | setImmediate =>
    obtain rfl := Option.some.inj hs
    exact schedule_inv h fun _ => rfl
  | clearTimer arg =>
    obtain ⟨hk, hs⟩ := ite_none_right_eq_some.mp hs
    obtain rfl := Option.some.inj hs
    exact clearTimer_inv h hk
  | clearImmediate arg =>
    obtain ⟨hk, hs⟩ := ite_none_right_eq_some.mp hs
    match arg with
    | .object (.immediate, i) =>
      obtain rfl := Option.some.inj hs
      have hr : i < s.made .immediate := of_decide_eq_true hk
      exact clear_inv h hr
    | .object (.timer, i) | .number n =>
      obtain rfl := Option.some.inj hs
      exact { h with item := fun x hx => (h.item x hx).frame rfl rfl Iff.rfl id }
  | fire r =>
    obtain ⟨⟨hnone, hr, hact⟩, hs⟩ := ite_none_right_eq_some.mp hs
    obtain rfl := Option.some.inj hs
    exact fire_inv h hr hnone hact
  | finished =>
    cases hrun : s.running with
    | none => simp [step, hrun] at hs
    | some r =>
      simp only [step, hrun] at hs
      obtain rfl := Option.some.inj hs
      exact finished_inv h hrun

@[simp]
theorem destroy_threw (s : Registry) (r : Ref) : (destroy s r).threw = s.threw := by
  unfold destroy
  split_ifs <;> rfl

@[simp]
theorem clearTimer_threw (s : Registry) (arg : Arg) : (clearTimer s arg).threw = s.threw := by
  unfold clearTimer
  split
  · split_ifs
    · exact destroy_threw s _
    · rfl
  · rfl
  · split_ifs
    · exact destroy_threw s _
    · rfl

@[simp]
theorem afterCallback_threw (s : Registry) (r : Ref) : (afterCallback s r).threw = s.threw := by
  unfold afterCallback
  split
  · split_ifs
    · rfl
    · exact destroy_threw s r
  · exact destroy_threw s r

theorem step_threw {e : Ev} (hthrew : s.threw = []) (hs : step s e = some s') :
    s'.threw = [] ↔ ∀ arg, e = .clearImmediate arg → ∃ i, arg = .object (.immediate, i) := by
  cases e with
  | setTimer loop =>
    obtain rfl := Option.some.inj hs
    exact iff_of_true hthrew nofun
  | setImmediate =>
    obtain rfl := Option.some.inj hs
    exact iff_of_true hthrew nofun
  | clearTimer arg =>
    obtain ⟨-, hs⟩ := ite_none_right_eq_some.mp hs
    obtain rfl := Option.some.inj hs
    exact iff_of_true ((clearTimer_threw s arg).trans hthrew) nofun
  | clearImmediate arg =>
    obtain ⟨-, hs⟩ := ite_none_right_eq_some.mp hs
    match arg with
    | .object (.immediate, i) =>
      obtain rfl := Option.some.inj hs
      exact iff_of_true ((destroy_threw s _).trans hthrew) fun arg ha => ⟨i, (Ev.clearImmediate.inj ha).symm⟩
    | .object (.timer, i) | .number n =>
      obtain rfl := Option.some.inj hs
      refine iff_of_false (append_ne_nil_of_right_ne_nil _ (cons_ne_nil _ _)) fun hall => ?_
      obtain ⟨j, hj⟩ := hall _ rfl
      simp at hj
  | fire r =>
    obtain ⟨-, hs⟩ := ite_none_right_eq_some.mp hs
    obtain rfl := Option.some.inj hs
    exact iff_of_true hthrew nofun
  | finished =>
    cases hrun : s.running with
    | none => simp [step, hrun] at hs
    | some r =>
      simp only [step, hrun] at hs
      obtain rfl := Option.some.inj hs
      exact iff_of_true ((afterCallback_threw s r).trans hthrew) nofun

structure Ok (s : Registry) : Prop where
  /-- the maps hold what was scheduled, has not finished and was not cleared -/
  exact : ∀ k i, i ∈ s.map k ↔ Known s (k, i) ∧ (k, i) ∉ s.finished ∧ (k, i) ∉ clearedRefs s
  nodup : ∀ k, (s.map k).Nodup
  /-- a callback of `setTimeout` or `setImmediate` runs at most once -/
  once : ∀ r, Known s r → (s.item r).repeats = false → s.ran.count r ≤ 1
  /-- no callback runs after its clear call returned -/
  after : ∀ c ∈ s.cleared, c.ref ∉ s.ran.drop c.after
  threw : s.threw = []

theorem Inv.ok (h : Inv s) (hthrew : s.threw = []) : Ok s where
  exact k i := by
    rw [h.map]
    refine and_congr_right fun hr => ?_
    rw [← not_or, ← (h.item _ hr).why, Bool.not_eq_true]
  nodup := h.nodup
  once r hr hrep := ((h.item r hr).once hrep).1
  after c hc := (h.after c hc).2
  threw := hthrew

theorem timer_registry_iff {es : List Ev} {t : Registry} (hr : run step {} es = some t) :
    (∀ u, Reached step {} es u → Ok u) ↔ ∀ arg, .clearImmediate arg ∈ es → ∃ i, arg = .object (.immediate, i) := by
  have hstep : ∀ s e s', Inv s → True → Ok s → step s e = some s' →
      (Ok s' ↔ ∀ arg, e = Ev.clearImmediate arg → ∃ i, arg = .object (.immediate, i)) := by
    intro s e s' h _ hok hs
    rw [← step_threw hok.threw hs]
    exact ⟨fun hok' => hok'.threw, (step_inv h hs).ok⟩
  rw [reached_iff_along (fun s e s' h _ hs => step_inv h hs) hstep start_inv (start_inv.ok rfl) (along_true _ _) hr, along_iff_forall hr]
  exact ⟨fun hall arg ha => hall _ ha arg rfl, fun hall e he arg ha => hall arg (ha ▸ he)⟩

/-- A `setInterval` whose callback clears itself by its number, a `setTimeout` cleared after it
has fired, an immediate that clears itself and one that is cleared twice. -/
def clearing : List Ev :=
  [.setTimer true, .setTimer false, .setImmediate, .setImmediate, .fire (.timer, 0), .finished, .fire (.timer, 1), .finished,
    .clearTimer (.object (.timer, 1)), .fire (.immediate, 0), .clearImmediate (.object (.immediate, 0)), .finished,
    .clearImmediate (.object (.immediate, 1)), .clearImmediate (.object (.immediate, 1)), .fire (.timer, 0), .clearTimer (.number 0),
    .finished, .clearTimer (.number 7)]

theorem timer_registry_clearing :
    (run step {} clearing).map (·.ran) = some [(.timer, 0), (.timer, 1), (.immediate, 0), (.timer, 0)] ∧
      ∀ u, Reached step {} clearing u → Ok u := by
  obtain ⟨t, hr, hran⟩ : ∃ t, run step {} clearing = some t ∧
      t.ran = [(.timer, 0), (.timer, 1), (.immediate, 0), (.timer, 0)] := ⟨_, rfl, rfl⟩
  refine ⟨by rw [hr, map_some, hran], (timer_registry_iff hr).mpr ?_⟩
  intro arg harg
  simp [clearing] at harg
  rcases harg with rfl | rfl
  · exact ⟨0, rfl⟩
  · exact ⟨1, rfl⟩

/-- `clearImmediate` with the number of a scheduled immediate throws, and the immediate runs. -/
theorem clear_throws :
    (run step {} [.setImmediate, .clearImmediate (.number 0), .fire (.immediate, 0)]).map (fun u => (u.threw, u.ran)) =
      some ([.number 0], [(.immediate, 0)]) := rfl

/-- Whatever `clearImmediate` is given: but for what it throws, the registry keeps its promises. -/
theorem timers_kept (es : List Ev) {t : Registry} (hr : run step {} es = some t) : Ok { t with threw := [] } := by
  have h : Inv t := run_inv (fun _ _ _ h _ hs => step_inv h hs) start_inv (along_true _ es) hr
  have h' : Inv { t with threw := [] } := { h with item := fun r hr => { h.item r hr with } }
  exact h'.ok rfl

theorem timers_kept_clearing : ∃ t, run step {} clearing = some t ∧ Ok { t with threw := [] } := ⟨_, rfl, timers_kept clearing rfl⟩

end Aworker.Timers
