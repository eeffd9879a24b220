/-
  Aworker.Dom.EventTarget — event listeners that change while an event is dispatched
  (lib/dom/event_target.js: `addEventListener`, `removeEventListener`, `doDispatchEvent`).

  One target and one event type; other types have lists of their own. A dispatch walks the
  array it found, by index. While `traversing` is set, adding or removing a listener makes a
  new array and leaves that one alone, and resets the flag: from then on the new array is
  changed in place. A dispatch also resets the flag at its end, and takes the removed
  listeners out of the array in place. Listeners may dispatch again, and all dispatches share
  the flag and, unless it was replaced, the array.

  `Registry` is what the DOM asks for: a dispatch takes the registered listeners when it
  starts, and gives each its turn if it is still registered then. A listener that is called
  once is not registered any more when it is called.

  Main result: `dispatch_refines`.
  Trace: `listener_skipped`.
-/

import Mathlib
import Aworker.Lib.Run

namespace Aworker.EventTarget

open Aworker.Lib List Option

variable {κ : Type}

/-! ## The target -/

structure Listener (κ : Type) where
  callback : κ
  capture : Bool
  once : Bool
  removed : Bool := false

/-- A call of `doDispatchEvent`. -/
structure Frame where
  dispatch : Nat
  /-- the array it walks; a dispatch that finds no listener walks none -/
  array : Option Nat
  /-- where the loop goes on -/
  index : Nat := 0
  /-- in a listener's callback -/
  calling : Bool := false

/-- Dispatch `dispatch` calls listener `listener`. -/
structure Invoked where
  dispatch : Nat
  listener : Nat
  deriving DecidableEq

/-- Listeners are numbered as they are added, and so are dispatches and arrays. -/
structure Target (κ : Type) where
  listeners : List (Listener κ) := []
  arrays : Nat → List Nat := fun _ => []
  allocated : Nat := 1
  list : Nat := 0
  traversing : Bool := false
  /-- the dispatches that have not returned, innermost first -/
  frames : List Frame := []
  dispatches : Nat := 0
  invoked : List Invoked := []

inductive Ev (κ : Type) where
  | add (callback : κ) (capture once : Bool)
  | remove (callback : κ) (capture : Bool)
  | dispatch
  /-- the innermost dispatch goes on to its next listener, or to its end -/
  | turn
  /-- the callback returns -/
  | returned

def Target.current (s : Target κ) : List Nat := s.arrays s.list

def Target.keyOf (s : Target κ) (id : Nat) : Option (κ × Bool) := s.listeners[id]?.map fun l => (l.callback, l.capture)

def Target.alive (s : Target κ) (id : Nat) : Bool := s.listeners[id]?.any fun l => !l.removed

def Target.setRemoved (s : Target κ) (id : Nat) : List (Listener κ) := s.listeners.modify id fun l => { l with removed := true }

/-- `listenerList.list` becomes `array`: in place, or as a new array while `traversing` is set. -/
def Target.replace (s : Target κ) (array : List Nat) : Target κ :=
  if s.traversing then
    { s with traversing := false, list := s.allocated, allocated := s.allocated + 1, arrays := Function.update s.arrays s.allocated array }
  else { s with arrays := Function.update s.arrays s.list array }

section

variable [DecidableEq κ]

def addEventListener (s : Target κ) (callback : κ) (capture once : Bool) : Target κ :=
  if s.current.any (s.keyOf · = some (callback, capture)) then s
  else Target.replace { s with listeners := s.listeners ++ [{ callback, capture, once }] } (s.current ++ [s.listeners.length])

/-- The loop of `removeEventListener` from index `i`, which reads the list anew in each turn. -/
def removeFrom (callback : κ) (capture : Bool) : Nat → Nat → Target κ → Target κ
  | 0, _, s => s
  | n + 1, i, s =>
    match s.current[i]? with
    | none => s
    | some id =>
      if s.keyOf id = some (callback, capture) then
        removeFrom callback capture n (i + 1) (Target.replace { s with listeners := s.setRemoved id } (s.current.eraseIdx i))
      else removeFrom callback capture n (i + 1) s

def removeEventListener (s : Target κ) (callback : κ) (capture : Bool) : Target κ :=
  removeFrom callback capture s.current.length 0 s

end

def dispatchEvent (s : Target κ) : Target κ :=
  if s.current = [] then { s with frames := { dispatch := s.dispatches, array := none } :: s.frames, dispatches := s.dispatches + 1 }
  else
    { s with
      traversing := true
      frames := { dispatch := s.dispatches, array := some s.list } :: s.frames
      dispatches := s.dispatches + 1 }

/-- What the loop has not seen yet. -/
def Target.rest (s : Target κ) (f : Frame) : List Nat :=
  match f.array with
  | some x => (s.arrays x).drop f.index
  | none => []

/-- The end of a dispatch: the removed listeners are taken out of the list there is then. -/
def Target.cleanUp (s : Target κ) : Target κ :=
  { s with traversing := false, arrays := Function.update s.arrays s.list (s.current.filter s.alive) }

def turn (s : Target κ) (f : Frame) (frames : List Frame) : Target κ :=
  match (s.rest f).dropWhile (!s.alive ·) with
  | id :: _ =>
    { s with
      listeners := if (s.listeners[id]?.any (·.once)) then s.setRemoved id else s.listeners
      frames := { f with index := f.index + ((s.rest f).takeWhile (!s.alive ·)).length + 1, calling := true } :: frames
      invoked := s.invoked ++ [{ dispatch := f.dispatch, listener := id }] }
  | [] =>
    match f.array with
    | some _ => { s.cleanUp with frames }
    | none => { s with frames }

open Target (alive keyOf setRemoved rest)

/-- User code runs outside all dispatches, or in a callback. -/
def userRuns (calling : List Bool) : Bool := calling.head?.all id

def step [DecidableEq κ] (s : Target κ) : Ev κ → Option (Target κ)
  | .add callback capture once => if userRuns (s.frames.map (·.calling)) then some (addEventListener s callback capture once) else none
  | .remove callback capture => if userRuns (s.frames.map (·.calling)) then some (removeEventListener s callback capture) else none
  | .dispatch => if userRuns (s.frames.map (·.calling)) then some (dispatchEvent s) else none
  | .turn =>
    match s.frames with
    | f :: frames => if f.calling then none else some (turn s f frames)
    | [] => none
  | .returned =>
    match s.frames with
    | f :: frames => if f.calling then some { s with frames := { f with calling := false } :: frames } else none
    | [] => none

/-! ## What the DOM asks for -/

structure Entry (κ : Type) where
  id : Nat
  callback : κ
  capture : Bool
  once : Bool

/-- A dispatch, and those of the listeners it started with that have not had their turn. -/
structure Call (κ : Type) where
  dispatch : Nat
  remaining : List (Entry κ)
  calling : Bool := false

structure Registry (κ : Type) where
  registered : List (Entry κ) := []
  made : Nat := 0
  calls : List (Call κ) := []
  dispatches : Nat := 0
  invoked : List Invoked := []

def Registry.has (a : Registry κ) (id : Nat) : Bool := a.registered.any (·.id = id)

def Entry.keyOf (e : Entry κ) : κ × Bool := (e.callback, e.capture)

def Registry.turn (a : Registry κ) (c : Call κ) (calls : List (Call κ)) : Registry κ :=
  match c.remaining.dropWhile (!a.has ·.id) with
  | e :: remaining =>
    { a with
      registered := if e.once then a.registered.filter (·.id ≠ e.id) else a.registered
      calls := { c with remaining, calling := true } :: calls
      invoked := a.invoked ++ [{ dispatch := c.dispatch, listener := e.id }] }
  | [] => { a with calls }

def registryStep [DecidableEq κ] (a : Registry κ) : Ev κ → Option (Registry κ)
  | .add callback capture once =>
    if userRuns (a.calls.map (·.calling)) then
      if a.registered.any (·.keyOf = (callback, capture)) then some a
      else some { a with registered := a.registered ++ [{ id := a.made, callback, capture, once }], made := a.made + 1 }
    else none
  | .remove callback capture =>
    if userRuns (a.calls.map (·.calling)) then some { a with registered := a.registered.filter (·.keyOf ≠ (callback, capture)) } else none
  | .dispatch =>
    if userRuns (a.calls.map (·.calling)) then
      some { a with calls := { dispatch := a.dispatches, remaining := a.registered } :: a.calls, dispatches := a.dispatches + 1 }
    else none
  | .turn =>
    match a.calls with
    | c :: calls => if c.calling then none else some (a.turn c calls)
    | [] => none
  | .returned =>
    match a.calls with
    | c :: calls => if c.calling then some { a with calls := { c with calling := false } :: calls } else none
    | [] => none

/-! ## When they agree -/

/-- The step changes no array in place where a dispatch has been, extends none that is walked,
    and adds no listener whose record is in the list although it was removed. -/
def Safe (s : Target κ) : Ev κ → Prop
  | .add callback capture _ =>
    (∀ id ∈ s.current, s.keyOf id = some (callback, capture) → s.alive id = true) ∧
      (s.traversing = true ∨ (∃ id ∈ s.current, s.keyOf id = some (callback, capture)) ∨ ∀ f ∈ s.frames, f.array ≠ some s.list)
  | .remove callback capture =>
    s.traversing = true ∨ ∀ f ∈ s.frames, f.array = some s.list → ∀ id ∈ s.current.take f.index, s.keyOf id ≠ some (callback, capture)
  | .turn =>
    match s.frames with
    | f :: frames => f.array ≠ none → (∀ id ∈ s.rest f, s.alive id = false) →
        ∀ g ∈ frames, g.array = some s.list → ∀ id ∈ s.current.take g.index, s.alive id = true
    | [] => True
  | _ => True

instance [DecidableEq κ] (s : Target κ) : (e : Ev κ) → Decidable (Safe s e)
  | .add _ _ _ => inferInstanceAs (Decidable (_ ∧ _))
  | .remove _ _ => inferInstanceAs (Decidable (_ ∨ _))
  | .dispatch => isTrue trivial
  | .turn =>
    match h : s.frames with
    | f :: frames => decidable_of_iff (f.array ≠ none → (∀ id ∈ s.rest f, s.alive id = false) →
        ∀ g ∈ frames, g.array = some s.list → ∀ id ∈ s.current.take g.index, s.alive id = true) (by simp only [Safe, h])
    | [] => isTrue (by simp only [Safe, h])
  | .returned => isTrue trivial

/-! ## Lists -/

variable {α : Type}

/-- The first element with `p`, and how the elements with `p` go on. -/
theorem dropWhile_cases (p : α → Bool) (l : List α) :
    (∃ x l', l.dropWhile (!p ·) = x :: l' ∧ p x = true ∧ l.filter p = x :: l'.filter p) ∨
      l.dropWhile (!p ·) = [] ∧ l.filter p = [] := by
  induction l with
  | nil => exact Or.inr ⟨rfl, rfl⟩
  | cons x l ih =>
    cases hx : p x with
    | true => exact Or.inl ⟨x, l, by simp [hx], hx, by simp [hx]⟩
    | false => simpa [hx] using ih

variable {p : α → Bool} {l : List α} {k : Nat} {x : α}

theorem filter_eraseIdx (hk : l[k]? = some x) (hx : p x = false) : (l.eraseIdx k).filter p = l.filter p := by
  induction l generalizing k with
  | nil => rfl
  | cons y l ih =>
    cases k with
    | zero =>
      obtain rfl : y = x := by simpa using hk
      simp [hx]
    | succ k =>
      have := ih (by simpa using hk)
      simp [filter_cons, this]

variable {i : Nat}

theorem drop_eraseIdx (l : List α) (h : i ≤ k) : (l.eraseIdx k).drop i = (l.drop i).eraseIdx (k - i) := by
  induction l generalizing i k with
  | nil => simp
  | cons y l ih =>
    cases i with
    | zero => rfl
    | succ i =>
      obtain ⟨k, rfl⟩ : ∃ j, k = j + 1 := ⟨k - 1, by omega⟩
      simpa using ih (by omega)

/-- Taking elements out behind `i` does not move what stands there. -/
theorem drop_filter (h : ∀ x ∈ l.take i, p x = true) : (l.filter p).drop i = (l.drop i).filter p := by
  induction l generalizing i with
  | nil => simp
  | cons y l ih =>
    cases i with
    | zero => rfl
    | succ i =>
      have hy : p y = true := h y (by simp)
      simpa [hy] using ih fun x hx => h x (by simp [hx])

variable {β : Type} {y : α}

/-- Where `f` tells the elements apart, it tells an erased one from all that are left. -/
theorem erased_ne {f : α → β} (h : (l.map f).Nodup) (hk : l[k]? = some x) (hy : y ∈ l.eraseIdx k) : f y ≠ f x := by
  obtain ⟨hlt, rfl⟩ := List.getElem?_eq_some_iff.mp hk
  have hperm := (getElem_cons_eraseIdx_perm hlt).map f
  have hnodup := hperm.nodup_iff.mpr h
  rw [map_cons, nodup_cons] at hnodup
  intro he
  exact hnodup.1 (he ▸ List.mem_map_of_mem hy)

theorem mem_eraseIdx_of_ne (hk : l[k]? = some x) (hy : y ∈ l) (hne : y ≠ x) : y ∈ l.eraseIdx k := by
  obtain ⟨hlt, rfl⟩ := List.getElem?_eq_some_iff.mp hk
  have := (getElem_cons_eraseIdx_perm hlt).mem_iff.mpr hy
  exact (mem_cons.mp this).resolve_left hne

theorem forall₂_imp_mem {R S : α → β → Prop} {u : List β} (h : List.Forall₂ R l u)
    (himp : ∀ x ∈ l, ∀ y, R x y → S x y) : List.Forall₂ S l u :=
  ((forall₂_and_left (p := (· ∈ l)) l u).mpr ⟨fun _ hx => hx, h⟩).imp fun x y hxy => himp x hxy.1 y hxy.2

/-! ## Flags and arrays -/

variable {s s' : Target κ} {a a' : Registry κ}

variable {id : Nat}

theorem alive_lt (h : s.alive id = true) : id < s.listeners.length := by
  by_contra hge
  rw [alive, getElem?_eq_none (not_lt.mp hge)] at h
  cases h

theorem alive_setRemoved (s : Target κ) (id x : Nat) :
    alive { s with listeners := s.setRemoved id } x = (s.alive x && decide (x ≠ id)) := by
  simp only [alive, setRemoved, getElem?_modify]
  by_cases h : id = x
  · subst h
    cases s.listeners[id]? <;> simp
  · cases s.listeners[x]? <;> simp [h, Ne.symm h]

theorem keyOf_setRemoved (s : Target κ) (id x : Nat) : keyOf { s with listeners := s.setRemoved id } x = s.keyOf x := by
  simp only [keyOf, setRemoved, getElem?_modify]
  by_cases h : id = x
  · subst h
    cases s.listeners[id]? <;> simp
  · cases s.listeners[x]? <;> simp [h]

theorem data_setRemoved (s : Target κ) (id x : Nat) (l : Listener κ) (hl : s.listeners[x]? = some l) :
    ∃ removed, (s.setRemoved id)[x]? = some { l with removed } := by
  rw [setRemoved, getElem?_modify, hl]
  by_cases h : id = x
  · exact ⟨true, by simp [h]⟩
  · exact ⟨l.removed, by simp [h]⟩

theorem kept_setRemoved {x : Nat} {l : Listener κ} (hne : x ≠ id) (hl : s.listeners[x]? = some l) :
    (s.setRemoved id)[x]? = some l := by
  simp [setRemoved, Ne.symm hne, hl]

/-! ## The relation -/

/-- A dispatch against the registry's: those that are still to be called are the same. -/
structure CallSim (s : Target κ) (f : Frame) (c : Call κ) : Prop where
  dispatch : c.dispatch = f.dispatch
  calling : c.calling = f.calling
  remaining : (c.remaining.map (·.id)).filter s.alive = (s.rest f).filter s.alive
  entries : ∀ e ∈ c.remaining, ∃ removed, s.listeners[e.id]? = some ⟨e.callback, e.capture, e.once, removed⟩

structure Sim (s : Target κ) (a : Registry κ) : Prop where
  allocated : s.list < s.allocated
  arrays : ∀ f ∈ s.frames, ∀ x, f.array = some x → x < s.allocated
  bounded : ∀ x, ∀ id ∈ s.arrays x, id < s.listeners.length
  /-- no two records in the list have one key -/
  unique : (s.current.map s.keyOf).Nodup
  /-- a listener leaves the list only with its flag set -/
  kept : ∀ id, s.alive id = true → id ∈ s.current
  made : a.made = s.listeners.length
  dispatches : a.dispatches = s.dispatches
  invoked : a.invoked = s.invoked
  registered : a.registered.map (·.id) = s.current.filter s.alive
  entries : ∀ e ∈ a.registered, s.listeners[e.id]? = some ⟨e.callback, e.capture, e.once, false⟩
  calls : List.Forall₂ (CallSim s) s.frames a.calls

theorem start_sim : Sim ({} : Target κ) {} where
  allocated := Nat.one_pos
  arrays := nofun
  bounded := nofun
  unique := nodup_nil
  kept id h := by simp [alive] at h
  made := rfl
  dispatches := rfl
  invoked := rfl
  registered := rfl
  entries := nofun
  calls := .nil

theorem Sim.has (h : Sim s a) (id : Nat) : a.has id = s.alive id := by
  rw [Bool.eq_iff_iff]
  have hmem : a.has id = true ↔ id ∈ a.registered.map (·.id) := by
    simp [Registry.has]
  rw [hmem, h.registered, mem_filter]
  exact ⟨fun hm => hm.2, fun ha => ⟨h.kept id ha, ha⟩⟩

variable {f : Frame} {frames : List Frame}

theorem Sim.head (h : Sim s a) (hf : s.frames = f :: frames) : ∃ c calls, a.calls = c :: calls ∧ CallSim s f c := by
  have hcalls := h.calls
  rw [hf] at hcalls
  obtain ⟨c, calls, hc, -, he⟩ := forall₂_cons_left_iff.mp hcalls
  exact ⟨c, calls, he, hc⟩

theorem Sim.userRuns (h : Sim s a) : userRuns (a.calls.map (·.calling)) = userRuns (s.frames.map (·.calling)) := by
  have hcalls := h.calls
  cases hf : s.frames with
  | nil =>
    rw [hf] at hcalls
    rw [forall₂_nil_left_iff.mp hcalls]
    rfl
  | cons f frames =>
    obtain ⟨c, calls, he, hc⟩ := h.head hf
    rw [he]
    simp [EventTarget.userRuns, hc.calling]

variable {c : Call κ} {q : Nat → Bool}

/-- What a step keeps of a dispatch: `q` are the listeners it did not remove. -/
theorem CallSim.step (h : CallSim s f c)
    (hdata : ∀ (id : Nat) (l : Listener κ), s.listeners[id]? = some l → ∃ removed, s'.listeners[id]? = some { l with removed })
    (halive : ∀ id < s.listeners.length, s'.alive id = (s.alive id && q id))
    (hrest : (s'.rest f).filter s'.alive = ((s.rest f).filter s.alive).filter q) : CallSim s' f c := by
  refine ⟨h.dispatch, h.calling, ?_, fun e he => ?_⟩
  · rw [hrest, ← h.remaining, List.filter_filter]
    refine filter_congr fun id hid => ?_
    obtain ⟨e, he, rfl⟩ := List.mem_map.mp hid
    obtain ⟨removed, hl⟩ := h.entries e he
    rw [halive e.id (List.getElem?_eq_some_iff.mp hl).1, Bool.and_comm]
  · obtain ⟨removed, hl⟩ := h.entries e he
    exact hdata e.id _ hl

/-- Flags are kept but for those of `q`, and the array is the same. -/
theorem filter_alive {l : List Nat} (hl : ∀ id ∈ l, id < s.listeners.length)
    (halive : ∀ id < s.listeners.length, s'.alive id = (s.alive id && q id)) : l.filter s'.alive = (l.filter s.alive).filter q := by
  rw [List.filter_filter]
  refine filter_congr fun id hid => ?_
  rw [halive id (hl id hid), Bool.and_comm]

theorem Sim.rest_bounded (h : Sim s a) (f : Frame) : ∀ id ∈ s.rest f, id < s.listeners.length := by
  intro id hid
  unfold rest at hid
  split at hid
  · exact h.bounded _ id (mem_of_mem_drop hid)
  · cases hid

/-! ## Replacing the array -/

@[simp] theorem replace_current (s : Target κ) (array : List Nat) : (s.replace array).current = array := by
  unfold Target.replace
  split <;> simp [Target.current]

@[simp] theorem replace_listeners (s : Target κ) (array : List Nat) : (s.replace array).listeners = s.listeners := by
  unfold Target.replace
  split <;> rfl

@[simp] theorem replace_frames (s : Target κ) (array : List Nat) : (s.replace array).frames = s.frames := by
  unfold Target.replace
  split <;> rfl

theorem replace_alive (s : Target κ) (array : List Nat) : (s.replace array).alive = s.alive := by
  funext id
  simp [alive]

theorem replace_keyOf (s : Target κ) (array : List Nat) : (s.replace array).keyOf = s.keyOf := by
  funext id
  simp [keyOf]

theorem replace_log (s : Target κ) (array : List Nat) :
    (s.replace array).dispatches = s.dispatches ∧ (s.replace array).invoked = s.invoked := by
  unfold Target.replace
  split <;> exact ⟨rfl, rfl⟩

variable {s : Target κ}

theorem replace_allocated (h : s.list < s.allocated) (array : List Nat) :
    (s.replace array).list < (s.replace array).allocated ∧ s.allocated ≤ (s.replace array).allocated := by
  unfold Target.replace
  split
  · exact ⟨Nat.lt_succ_self _, Nat.le_succ _⟩
  · exact ⟨h, Nat.le_refl _⟩

theorem replace_arrays (s : Target κ) (array : List Nat) (x : Nat) :
    (s.replace array).arrays x = array ∨ (s.replace array).arrays x = s.arrays x := by
  unfold Target.replace
  split
  · by_cases hx : x = s.allocated
    · exact Or.inl (by simp [hx])
    · exact Or.inr (by simp [hx])
  · by_cases hx : x = s.list
    · exact Or.inl (by simp [hx])
    · exact Or.inr (by simp [hx])

/-- A dispatch sees the new array only if it is changed in place. -/
theorem replace_rest (hf : ∀ x, f.array = some x → x < s.allocated) (array : List Nat) :
    (s.replace array).rest f = s.rest f ∨
      s.traversing = false ∧ f.array = some s.list ∧ (s.replace array).rest f = array.drop f.index := by
  cases hx : f.array with
  | none => exact Or.inl (by simp [rest, hx])
  | some x =>
    have hlt := hf x hx
    unfold Target.replace
    split
    · exact Or.inl (by simp [rest, hx, Nat.ne_of_lt hlt])
    · next htr =>
      by_cases hl : x = s.list
      · exact Or.inr ⟨Bool.eq_false_of_not_eq_true htr, by rw [hl], by simp [rest, hx, hl]⟩
      · exact Or.inl (by simp [rest, hx, hl])

/-- The list becomes `array`, with the flags of `listeners`: `q` are the listeners that keep
    theirs. Dispatches that walk the list see no difference but for these. -/
theorem Sim.change (h : Sim s a) {listeners : List (Listener κ)} {array : List Nat} {registered : List (Entry κ)}
    (hlen : s.listeners.length ≤ listeners.length)
    (hdata : ∀ (id : Nat) (l : Listener κ), s.listeners[id]? = some l → ∃ removed, listeners[id]? = some { l with removed })
    (halive : ∀ id < s.listeners.length, alive { s with listeners } id = (s.alive id && q id))
    (hbounded : ∀ id ∈ array, id < listeners.length)
    (hunique : (array.map (keyOf { s with listeners })).Nodup)
    (hkept : ∀ id, alive { s with listeners } id = true → id ∈ array)
    (hreg : registered.map (·.id) = array.filter (alive { s with listeners }))
    (hentries : ∀ e ∈ registered, listeners[e.id]? = some ⟨e.callback, e.capture, e.once, false⟩)
    (hrest : s.traversing = false → ∀ f ∈ s.frames, f.array = some s.list →
      (array.drop f.index).filter (alive { s with listeners }) = ((s.current.drop f.index).filter s.alive).filter q) :
    Sim (Target.replace { s with listeners } array) { a with registered, made := listeners.length } := by
  have hs1 : ({ s with listeners } : Target κ).list < ({ s with listeners } : Target κ).allocated := h.allocated
  obtain ⟨hlist, hgrow⟩ := replace_allocated hs1 array
  obtain ⟨hdis, hinv⟩ := replace_log { s with listeners } array
  refine ⟨hlist, fun f hf x hx => ?_, fun x id hid => ?_, ?_, ?_, ?_, ?_, ?_, ?_, ?_, ?_⟩
  · rw [replace_frames] at hf
    exact Nat.lt_of_lt_of_le (h.arrays f hf x hx) hgrow
  · rw [replace_listeners]
    rcases replace_arrays { s with listeners } array x with he | he
    · exact hbounded id (he ▸ hid)
    · exact Nat.lt_of_lt_of_le (h.bounded x id (he ▸ hid)) hlen
  · rw [replace_current, replace_keyOf]
    exact hunique
  · rw [replace_current, replace_alive]
    exact hkept
  · rw [replace_listeners]
  · exact h.dispatches.trans hdis.symm
  · exact h.invoked.trans hinv.symm
  · rw [replace_current, replace_alive]
    exact hreg
  · rw [replace_listeners]
    exact hentries
  · rw [replace_frames]
    refine forall₂_imp_mem h.calls fun f hf c hc => ?_
    refine hc.step (q := q) (by rw [replace_listeners]; exact hdata) (by rw [replace_alive]; exact halive) ?_
    rw [replace_alive]
    rcases replace_rest (s := { s with listeners }) (h.arrays f hf) array with he | ⟨htr, hl, he⟩
    · rw [he]
      exact filter_alive (h.rest_bounded f) halive
    · rw [he, hrest htr f hf hl, rest, hl]
      rfl

/-! ## Adding and removing -/

theorem Sim.key_iff (h : Sim s a) (callback : κ) (capture : Bool) :
    (∃ e ∈ a.registered, e.keyOf = (callback, capture)) ↔ ∃ id ∈ s.current, s.alive id = true ∧ s.keyOf id = some (callback, capture) := by
  constructor
  · rintro ⟨e, he, hk⟩
    have hm : e.id ∈ s.current.filter s.alive := h.registered ▸ List.mem_map_of_mem he
    obtain ⟨hcur, hal⟩ := mem_filter.mp hm
    refine ⟨e.id, hcur, hal, ?_⟩
    simpa [keyOf, h.entries e he, Entry.keyOf] using hk
  · rintro ⟨id, hcur, hal, hk⟩
    have hm : id ∈ a.registered.map (·.id) := h.registered ▸ mem_filter.mpr ⟨hcur, hal⟩
    obtain ⟨e, he, rfl⟩ := List.mem_map.mp hm
    refine ⟨e, he, ?_⟩
    simpa [keyOf, h.entries e he, Entry.keyOf] using hk

variable {callback : κ} {capture once : Bool}

theorem add_sim (h : Sim s a) (hsafe : Safe s (.add callback capture once))
    (hnew : ¬∃ id ∈ s.current, s.keyOf id = some (callback, capture)) :
    Sim (Target.replace { s with listeners := s.listeners ++ [{ callback, capture, once }] } (s.current ++ [s.listeners.length]))
      { a with registered := a.registered ++ [{ id := a.made, callback, capture, once }], made := a.made + 1 } := by
  have hlt : ∀ id < s.listeners.length,
      (s.listeners ++ [({ callback, capture, once } : Listener κ)])[id]? = s.listeners[id]? := fun id hid => getElem?_append_left hid
  have halive : ∀ id < s.listeners.length,
      alive { s with listeners := s.listeners ++ [{ callback, capture, once }] } id = (s.alive id && true) := by
    intro id hid
    simp only [alive, hlt id hid, Bool.and_true]
  have hcur : ∀ id ∈ s.current, id < s.listeners.length := h.bounded s.list
  have hmade : a.made + 1 = (s.listeners ++ [({ callback, capture, once } : Listener κ)]).length := by simp [h.made]
  rw [hmade]
  refine h.change (by simp) (fun id l hl => ?_) halive (fun id hid => ?_) ?_ (fun id hid => ?_) ?_ (fun e he => ?_) (fun htr f hf hl => ?_)
  · exact ⟨l.removed, (hlt id (List.getElem?_eq_some_iff.mp hl).1).trans hl⟩
  · rcases mem_append.mp hid with hid | hid
    · simpa using Nat.lt_succ_of_lt (hcur id hid)
    · simp [mem_singleton.mp hid]
  · have hold : s.current.map (keyOf { s with listeners := s.listeners ++ [{ callback, capture, once }] }) = s.current.map s.keyOf := by
      refine map_congr_left fun id hid => ?_
      simp only [keyOf, hlt id (hcur id hid)]
    rw [map_append, hold]
    refine nodup_append.mpr ⟨h.unique, nodup_singleton _, fun x hx y hy he => ?_⟩
    obtain ⟨id, hid, rfl⟩ := List.mem_map.mp hx
    refine hnew ⟨id, hid, he.trans ?_⟩
    simpa [keyOf] using hy
  · rcases Nat.lt_succ_iff_lt_or_eq.mp (by simpa using alive_lt hid) with hid' | rfl
    · rw [halive id hid', Bool.and_true] at hid
      exact mem_append_left _ (h.kept id hid)
    · simp
  · have hold : s.current.filter (alive { s with listeners := s.listeners ++ [{ callback, capture, once }] }) = s.current.filter s.alive := by
      refine filter_congr fun id hid => ?_
      rw [halive id (hcur id hid), Bool.and_true]
    have hone : alive { s with listeners := s.listeners ++ [{ callback, capture, once }] } s.listeners.length = true := by
      simp [alive]
    rw [map_append, h.registered, filter_append, hold]
    simp [hone, h.made]
  · rcases mem_append.mp he with he | he
    · have := h.entries e he
      rw [hlt e.id (List.getElem?_eq_some_iff.mp this).1]
      exact this
    · simp [mem_singleton.mp he, h.made]
  · -- the array is extended in place, so no dispatch walks it
    rcases hsafe.2 with ht | hdup | hfree
    · rw [htr] at ht
      cases ht
    · exact absurd hdup hnew
    · exact absurd hl (hfree f hf)

section

variable [DecidableEq κ]

theorem removeFrom_none (n : Nat)
    (h : ∀ k id, i ≤ k → s.current[k]? = some id → s.keyOf id ≠ some (callback, capture)) : removeFrom callback capture n i s = s := by
  induction n generalizing i with
  | zero => rfl
  | succ n ih =>
    unfold removeFrom
    split
    · rfl
    · next id hid =>
      rw [if_neg (h i id (Nat.le_refl i) hid)]
      exact ih fun k id hk => h k id (Nat.le_of_succ_le hk)

theorem removeFrom_cases (hu : (s.current.map s.keyOf).Nodup) (callback : κ) (capture : Bool) (n i : Nat) (hn : s.current.length ≤ i + n)
    (hbefore : ∀ k id, k < i → s.current[k]? = some id → s.keyOf id ≠ some (callback, capture)) :
    (∀ id ∈ s.current, s.keyOf id ≠ some (callback, capture)) ∧ removeFrom callback capture n i s = s ∨
      ∃ k id, s.current[k]? = some id ∧ s.keyOf id = some (callback, capture) ∧
        removeFrom callback capture n i s = Target.replace { s with listeners := s.setRemoved id } (s.current.eraseIdx k) := by
  induction n generalizing i with
  | zero =>
    left
    refine ⟨fun id hid => ?_, rfl⟩
    obtain ⟨k, hk, rfl⟩ := mem_iff_getElem.mp hid
    exact hbefore k _ (by omega) (getElem?_eq_getElem hk)
  | succ n ih =>
    unfold removeFrom
    split
    · next hnone =>
      left
      refine ⟨fun id hid => ?_, rfl⟩
      obtain ⟨k, hk, rfl⟩ := mem_iff_getElem.mp hid
      exact hbefore k _ (Nat.lt_of_lt_of_le hk (List.getElem?_eq_none_iff.mp hnone)) (getElem?_eq_getElem hk)
    · next id hid =>
      by_cases hk : s.keyOf id = some (callback, capture)
      · right
        refine ⟨i, id, hid, hk, ?_⟩
        rw [if_pos hk]
        refine removeFrom_none n fun k x _ hx => ?_
        rw [replace_current] at hx
        rw [replace_keyOf, keyOf_setRemoved, ← hk]
        exact erased_ne hu hid (mem_of_getElem? hx)
      · rw [if_neg hk]
        refine ih (i + 1) (by omega) fun k x hlt hx => ?_
        rcases Nat.lt_succ_iff_lt_or_eq.mp hlt with hlt | rfl
        · exact hbefore k x hlt hx
        · rw [hid] at hx
          cases hx
          exact hk

theorem remove_sim (h : Sim s a) (hsafe : Safe s (.remove callback capture))
    (hk : s.current[k]? = some id) (hkey : s.keyOf id = some (callback, capture)) :
    Sim (Target.replace { s with listeners := s.setRemoved id } (s.current.eraseIdx k))
      { a with registered := a.registered.filter (·.keyOf ≠ (callback, capture)) } := by
  have hmade : a.made = (s.setRemoved id).length := by simp [setRemoved, h.made]
  have hsub : (s.current.eraseIdx k).Sublist s.current := eraseIdx_sublist ..
  have hdead : alive { s with listeners := s.setRemoved id } id = false := by simp [alive_setRemoved]
  have hfilter : ∀ l : List Nat,
      l.filter (alive { s with listeners := s.setRemoved id }) = (l.filter s.alive).filter fun x => decide (x ≠ id) := by
    intro l
    rw [List.filter_filter]
    refine filter_congr fun x _ => ?_
    rw [alive_setRemoved, Bool.and_comm]
  -- among the registered ones, only the removed listener has the key
  have hentry : ∀ e ∈ a.registered, e.keyOf = (callback, capture) ↔ e.id = id := by
    intro e he
    have hcur : e.id ∈ s.current := (mem_filter.mp (h.registered ▸ List.mem_map_of_mem he)).1
    have hdata : s.keyOf e.id = some e.keyOf := by simp [keyOf, h.entries e he, Entry.keyOf]
    refine ⟨fun hke => ?_, fun hid => ?_⟩
    · exact inj_on_of_nodup_map h.unique hcur (mem_of_getElem? hk) (by rw [hdata, hke, hkey])
    · rw [hid, hkey] at hdata
      exact (Option.some.inj hdata).symm
  rw [hmade]
  refine h.change (by simp [setRemoved]) (data_setRemoved s id) (fun x _ => alive_setRemoved s id x) (fun x hx => ?_) ?_
    (fun x hx => ?_) ?_ (fun e he => ?_) (fun htr f hf hl => ?_)
  · rw [← hmade, h.made]
    exact h.bounded s.list x (hsub.subset hx)
  · rw [show keyOf { s with listeners := s.setRemoved id } = s.keyOf from funext (keyOf_setRemoved s id)]
    exact h.unique.sublist (hsub.map _)
  · rw [alive_setRemoved, Bool.and_eq_true, decide_eq_true_eq] at hx
    exact mem_eraseIdx_of_ne hk (h.kept x hx.1) hx.2
  · rw [filter_eraseIdx hk hdead, hfilter, ← h.registered, List.filter_map]
    refine congrArg _ (filter_congr fun e he => ?_)
    simpa using hentry e he
  · obtain ⟨hm, hne⟩ := mem_filter.mp he
    exact kept_setRemoved (fun hid => by simp [(hentry e hm).mpr hid] at hne) (h.entries e hm)
  · rcases hsafe with ht | hbehind
    · rw [htr] at ht
      cases ht
    · have hle : f.index ≤ k := by
        by_contra hlt
        refine hbehind f hf hl id ?_ hkey
        exact mem_of_getElem? (by rw [getElem?_take_of_lt (not_le.mp hlt), hk])
      have hdrop : (s.current.drop f.index)[k - f.index]? = some id := by
        rw [getElem?_drop, Nat.add_sub_cancel' hle, hk]
      rw [drop_eraseIdx _ hle, filter_eraseIdx hdrop hdead, hfilter]

end

/-! ## Dispatching -/

theorem dispatch_sim (h : Sim s a) :
    Sim (dispatchEvent s) { a with calls := { dispatch := a.dispatches, remaining := a.registered } :: a.calls, dispatches := a.dispatches + 1 } := by
  have hremaining : (a.registered.map (·.id)).filter s.alive = s.current.filter s.alive := by
    rw [h.registered, List.filter_filter]
    simp
  have hentries : ∀ e ∈ a.registered, ∃ removed, s.listeners[e.id]? = some ⟨e.callback, e.capture, e.once, removed⟩ :=
    fun e he => ⟨false, h.entries e he⟩
  unfold dispatchEvent
  split
  · next hempty =>
    refine ⟨h.allocated, fun f hf x hx => ?_, h.bounded, h.unique, h.kept, h.made, congrArg (· + 1) h.dispatches, h.invoked, h.registered,
      h.entries, .cons ⟨h.dispatches, rfl, ?_, hentries⟩ (h.calls.imp fun _ _ hc => { hc with })⟩
    · rcases mem_cons.mp hf with rfl | hf
      · cases hx
      · exact h.arrays f hf x hx
    · rw [hempty] at hremaining
      exact hremaining
  · refine ⟨h.allocated, fun f hf x hx => ?_, h.bounded, h.unique, h.kept, h.made, congrArg (· + 1) h.dispatches, h.invoked, h.registered,
      h.entries, .cons ⟨h.dispatches, rfl, hremaining, hentries⟩ (h.calls.imp fun _ _ hc => { hc with })⟩
    rcases mem_cons.mp hf with rfl | hf
    · cases hx
      exact h.allocated
    · exact h.arrays f hf x hx

variable {calls : List (Call κ)}

/-- The innermost dispatch goes on: `called` is what it calls. -/
theorem Sim.goOn (h : Sim s a) {f' : Frame} {c' : Call κ} (hf : s.frames = f :: frames)
    (hc : a.calls = c :: calls) (hsim : CallSim s f' c') (harray : f'.array = f.array) (called : List Invoked) :
    Sim { s with frames := f' :: frames, invoked := s.invoked ++ called } { a with calls := c' :: calls, invoked := a.invoked ++ called } := by
  have hcalls := h.calls
  rw [hf, hc] at hcalls
  refine ⟨h.allocated, fun g hg x hx => ?_, h.bounded, h.unique, h.kept, h.made, h.dispatches, by rw [h.invoked], h.registered,
    h.entries, .cons { hsim with } ((forall₂_cons.mp hcalls).2.imp fun _ _ hg => { hg with })⟩
  rcases mem_cons.mp hg with rfl | hg
  · exact h.arrays f (by simp [hf]) x (harray ▸ hx)
  · exact h.arrays g (by simp [hf, hg]) x hx

theorem Sim.pop (h : Sim s a) (hf : s.frames = f :: frames)
    (hc : a.calls = c :: calls) : Sim { s with frames } { a with calls } := by
  have hcalls := h.calls
  rw [hf, hc] at hcalls
  exact ⟨h.allocated, fun g hg => h.arrays g (by simp [hf, hg]), h.bounded, h.unique, h.kept, h.made, h.dispatches, h.invoked, h.registered,
    h.entries, (forall₂_cons.mp hcalls).2.imp fun _ _ hg => { hg with }⟩

/-- A listener that is called once loses its registration, and its record stays in the list. -/
theorem Sim.flag (h : Sim s a) (id : Nat) :
    Sim { s with listeners := s.setRemoved id } { a with registered := a.registered.filter (·.id ≠ id) } := by
  have hlen : (s.setRemoved id).length = s.listeners.length := by simp [setRemoved]
  have hfilter : ∀ l : List Nat,
      l.filter (alive { s with listeners := s.setRemoved id }) = (l.filter s.alive).filter fun x => decide (x ≠ id) := by
    intro l
    rw [List.filter_filter]
    refine filter_congr fun x _ => ?_
    rw [alive_setRemoved, Bool.and_comm]
  refine ⟨h.allocated, h.arrays, fun x y hy => ?_, ?_, fun x hx => ?_, h.made.trans hlen.symm, h.dispatches, h.invoked, ?_, fun e he => ?_,
    forall₂_imp_mem h.calls fun f hf c hc => ?_⟩
  · rw [hlen]
    exact h.bounded x y hy
  · rw [show keyOf { s with listeners := s.setRemoved id } = s.keyOf from funext (keyOf_setRemoved s id)]
    exact h.unique
  · rw [alive_setRemoved, Bool.and_eq_true] at hx
    exact h.kept x hx.1
  · have hmap : (a.registered.filter (·.id ≠ id)).map (·.id) = (a.registered.map (·.id)).filter fun x => decide (x ≠ id) := by
      rw [List.filter_map]
      rfl
    rw [hfilter]
    exact hmap.trans (congrArg _ h.registered)
  · obtain ⟨hm, hne⟩ := mem_filter.mp he
    exact kept_setRemoved (by simpa using hne) (h.entries e hm)
  · exact hc.step (data_setRemoved s id) (fun x _ => alive_setRemoved s id x) (hfilter _)

theorem Sim.cleanUp (h : Sim s a)
    (hsafe : ∀ g ∈ s.frames, g.array = some s.list → ∀ id ∈ s.current.take g.index, s.alive id = true) : Sim s.cleanUp a := by
  have hcur : s.cleanUp.current = s.current.filter s.alive := by simp [Target.cleanUp, Target.current]
  have htwice : ∀ l : List Nat, (l.filter s.alive).filter s.alive = l.filter s.alive := by
    intro l
    rw [List.filter_filter]
    simp
  refine ⟨h.allocated, h.arrays, fun x id hid => ?_, ?_, fun id hid => ?_, h.made, h.dispatches, h.invoked, ?_, h.entries,
    forall₂_imp_mem h.calls fun f hf c hc => ?_⟩
  · by_cases hx : x = s.list
    · subst hx
      rw [show s.cleanUp.arrays s.list = s.current.filter s.alive from hcur] at hid
      exact h.bounded s.list id (mem_of_mem_filter hid)
    · simp only [Target.cleanUp, Function.update_of_ne hx] at hid
      exact h.bounded x id hid
  · rw [hcur]
    exact h.unique.sublist (filter_sublist.map _)
  · rw [hcur]
    exact mem_filter.mpr ⟨h.kept id hid, hid⟩
  · rw [hcur]
    exact h.registered.trans (htwice _).symm
  · refine hc.step (q := fun _ => true) (fun id l hl => ⟨l.removed, hl⟩) (fun id _ => (Bool.and_true _).symm) ?_
    have halive : s.cleanUp.alive = s.alive := rfl
    rw [halive, filter_true]
    cases hx : f.array with
    | none => simp [rest, hx]
    | some x =>
      by_cases hl : x = s.list
      · subst hl
        have hrest : s.cleanUp.rest f = (s.current.filter s.alive).drop f.index := by
          simp [rest, hx, Target.cleanUp]
        rw [hrest, drop_filter (hsafe f hf hx), htwice]
        simp [rest, hx, Target.current]
      · simp [rest, hx, Target.cleanUp, Function.update_of_ne hl]

theorem rest_advance (s : Target κ) (f : Frame) (n : Nat) (calling : Bool) :
    s.rest { f with index := f.index + n + 1, calling } = (s.rest f).drop (n + 1) := by
  cases hx : f.array with
  | none => simp [rest, hx]
  | some x => simp only [rest, hx, drop_drop, Nat.add_assoc]

theorem rest_called {l : List Nat} (hdrop : (s.rest f).dropWhile (!s.alive ·) = id :: l) (calling : Bool) :
    s.rest { f with index := f.index + ((s.rest f).takeWhile (!s.alive ·)).length + 1, calling } = l := by
  have hsplit := takeWhile_append_dropWhile (p := (!s.alive ·)) (l := s.rest f)
  rw [hdrop] at hsplit
  rw [rest_advance]
  nth_rewrite 2 [← hsplit]
  simp

theorem turn_calls (h : Sim s a) (hc : CallSim s f c) :
    (∃ id l e remaining, (s.rest f).dropWhile (!s.alive ·) = id :: l ∧ c.remaining.dropWhile (!a.has ·.id) = e :: remaining ∧ e.id = id ∧
      e ∈ c.remaining ∧ (∀ x ∈ remaining, x ∈ c.remaining) ∧ (remaining.map (·.id)).filter s.alive = l.filter s.alive) ∨
      (s.rest f).dropWhile (!s.alive ·) = [] ∧ c.remaining.dropWhile (!a.has ·.id) = [] ∧ ∀ id ∈ s.rest f, s.alive id = false := by
  have hhas : (fun e : Entry κ => !a.has e.id) = fun e => !s.alive e.id := funext fun e => congrArg _ (h.has e.id)
  have hsame : (c.remaining.filter fun e => s.alive e.id).map (·.id) = (s.rest f).filter s.alive := by
    rw [← hc.remaining, List.filter_map]
    rfl
  rw [hhas]
  rcases dropWhile_cases s.alive (s.rest f) with ⟨id, l, hdrop, -, hfilter⟩ | ⟨hdrop, hfilter⟩
  · rcases dropWhile_cases (fun e : Entry κ => s.alive e.id) c.remaining with ⟨e, remaining, hdrop', -, hfilter'⟩ | ⟨-, hfilter'⟩
    · rw [hfilter, hfilter', map_cons] at hsame
      obtain ⟨hid, hl⟩ := List.cons.inj hsame
      have hsuffix : e :: remaining <:+ c.remaining := hdrop' ▸ dropWhile_suffix _
      refine Or.inl ⟨id, l, e, remaining, hdrop, hdrop', hid, hsuffix.subset mem_cons_self,
        fun x hx => hsuffix.subset (mem_cons_of_mem _ hx), ?_⟩
      rw [← hl, List.filter_map]
      rfl
    · rw [hfilter, hfilter'] at hsame
      cases hsame
  · rcases dropWhile_cases (fun e : Entry κ => s.alive e.id) c.remaining with ⟨e, remaining, -, -, hfilter'⟩ | ⟨hdrop', -⟩
    · rw [hfilter, hfilter'] at hsame
      cases hsame
    · refine Or.inr ⟨hdrop, hdrop', fun id hid => ?_⟩
      simpa using filter_eq_nil_iff.mp hfilter id hid

theorem turn_sim (h : Sim s a) (hf : s.frames = f :: frames) (hcalls : a.calls = c :: calls) (hc : CallSim s f c)
    (hsafe : f.array ≠ none → (∀ id ∈ s.rest f, s.alive id = false) →
      ∀ g ∈ frames, g.array = some s.list → ∀ id ∈ s.current.take g.index, s.alive id = true) :
    Sim (turn s f frames) (a.turn c calls) := by
  rcases turn_calls h hc with ⟨id, l, e, remaining, hdrop, hdrop', rfl, he, hsub, hremaining⟩ | ⟨hdrop, hdrop', hdead⟩
  · obtain ⟨removed, hl⟩ := hc.entries e he
    have hsim : CallSim s { f with index := f.index + ((s.rest f).takeWhile (!s.alive ·)).length + 1, calling := true }
        { dispatch := f.dispatch, remaining, calling := true } :=
      ⟨rfl, rfl, by rw [rest_called hdrop]; exact hremaining, fun x hx => hc.entries x (hsub x hx)⟩
    have hon := h.goOn hf hcalls hsim rfl [{ dispatch := f.dispatch, listener := e.id }]
    have honce : s.listeners[e.id]?.any (·.once) = e.once := by simp [hl]
    simp only [turn, hdrop, Registry.turn, hdrop', honce, hc.dispatch]
    by_cases ho : e.once = true
    · simp only [ho, if_true]
      exact hon.flag e.id
    · simp only [if_neg ho]
      exact hon
  · have hpop := h.pop hf hcalls
    simp only [turn, hdrop, Registry.turn, hdrop']
    split
    · next x hx => exact hpop.cleanUp (hsafe (by rw [hx]; nofun) hdead)
    · exact hpop

/-! ## Whole runs -/

variable [DecidableEq κ]

/-- `addEventListener` and the registry agree on what is there already. -/
theorem addEventListener_sim (h : Sim s a) (hsafe : Safe s (.add callback capture once))
    (hu : userRuns (s.frames.map (·.calling)) = true) :
    ∃ a', registryStep a (.add callback capture once) = some a' ∧ Sim (addEventListener s callback capture once) a' := by
  simp only [registryStep, h.userRuns, hu, if_true]
  unfold addEventListener
  by_cases hdup : ∃ id ∈ s.current, s.keyOf id = some (callback, capture)
  · obtain ⟨id, hid, hk⟩ := hdup
    have hreg := (h.key_iff callback capture).mpr ⟨id, hid, hsafe.1 id hid hk, hk⟩
    rw [if_pos (by simpa using hreg), if_pos (by simpa using ⟨id, hid, hk⟩)]
    exact ⟨a, rfl, h⟩
  · have hreg : ¬∃ e ∈ a.registered, e.keyOf = (callback, capture) := by
      rw [h.key_iff]
      exact fun ⟨id, hid, _, hk⟩ => hdup ⟨id, hid, hk⟩
    rw [if_neg (by simpa using hreg), if_neg (by simpa using hdup)]
    exact ⟨_, rfl, add_sim h hsafe hdup⟩

theorem removeEventListener_sim (h : Sim s a) (hsafe : Safe s (.remove callback capture))
    (hu : userRuns (s.frames.map (·.calling)) = true) :
    ∃ a', registryStep a (.remove callback capture) = some a' ∧ Sim (removeEventListener s callback capture) a' := by
  simp only [registryStep, h.userRuns, hu, if_true]
  refine ⟨_, rfl, ?_⟩
  unfold removeEventListener
  rcases removeFrom_cases h.unique callback capture s.current.length 0 (by omega) (fun k id hk => absurd hk (Nat.not_lt_zero k)) with
    ⟨hnone, he⟩ | ⟨k, id, hk, hkey, he⟩
  · have hsame : a.registered.filter (·.keyOf ≠ (callback, capture)) = a.registered := by
      refine filter_eq_self.mpr fun e hm => ?_
      have hkey : ¬e.keyOf = (callback, capture) := fun hk => by
        obtain ⟨id, hid, -, hk⟩ := (h.key_iff callback capture).mp ⟨e, hm, hk⟩
        exact hnone id hid hk
      simpa using hkey
    rw [he, hsame]
    exact h
  · rw [he]
    exact remove_sim h hsafe hk hkey

theorem sim_step (h : Sim s a) {e : Ev κ} (hsafe : Safe s e) (hs : step s e = some s') :
    ∃ a', registryStep a e = some a' ∧ Sim s' a' := by
  cases e with
  | add callback capture once =>
    obtain ⟨hu, hs⟩ := ite_none_right_eq_some.mp hs
    cases hs
    exact addEventListener_sim h hsafe hu
  | remove callback capture =>
    obtain ⟨hu, hs⟩ := ite_none_right_eq_some.mp hs
    cases hs
    exact removeEventListener_sim h hsafe hu
  | dispatch =>
    obtain ⟨hu, hs⟩ := ite_none_right_eq_some.mp hs
    cases hs
    simp only [registryStep, h.userRuns, hu, if_true]
    exact ⟨_, rfl, dispatch_sim h⟩
  | turn =>
    simp only [step] at hs
    split at hs
    · next f frames hf =>
      obtain ⟨hcalling, hs⟩ := ite_none_left_eq_some.mp hs
      cases hs
      obtain ⟨c, calls, he, hc⟩ := h.head hf
      simp only [Safe, hf] at hsafe
      refine ⟨a.turn c calls, ?_, turn_sim h hf he hc hsafe⟩
      simp only [registryStep, he, hc.calling, if_neg hcalling]
    · cases hs
  | returned =>
    simp only [step] at hs
    split at hs
    · next f frames hf =>
      obtain ⟨hcalling, hs⟩ := ite_none_right_eq_some.mp hs
      cases hs
      obtain ⟨c, calls, he, hc⟩ := h.head hf
      refine ⟨{ a with calls := { c with calling := false } :: calls }, ?_, ?_⟩
      · simp only [registryStep, he, hc.calling, if_pos hcalling]
      · have hsim : CallSim s { f with calling := false } { c with calling := false } := ⟨hc.dispatch, rfl, hc.remaining, hc.entries⟩
        simpa using h.goOn hf he hsim rfl []
    · cases hs

/-- Whatever the listeners do: as long as the steps are safe, the listeners are called by the
    same dispatches and in the same order as the registry calls them. -/
theorem dispatch_refines {es : List (Ev κ)} {t : Target κ} (hr : run step {} es = some t) (hsafe : Along step Safe {} es) :
    ∃ a, run registryStep {} es = some a ∧ t.invoked = a.invoked := by
  obtain ⟨a, hrun, hsim⟩ : ∃ a, run registryStep {} ([] ++ es) = some a ∧ Sim t a := by
    refine run_history_along (J := fun s es => ∃ a, run registryStep {} es = some a ∧ Sim s a) (fun s es e s' hj hq hs => ?_)
      ⟨{}, rfl, start_sim⟩ hsafe hr
    obtain ⟨a, hrun, hsim⟩ := hj
    obtain ⟨a', ha, hsim'⟩ := sim_step hsim hq hs
    exact ⟨a', run_append.mpr ⟨a, hrun, run_cons.mpr ⟨a', ha, rfl⟩⟩, hsim'⟩
  exact ⟨a, hrun, hsim.invoked.symm⟩

/-- A listener is added in a callback, a nested dispatch calls it, and removes it. -/
def nestedRun : List (Ev Bool) :=
  [.add false false false, .dispatch, .turn, .add true false true, .dispatch, .turn, .returned, .turn, .remove false false, .returned,
    .turn, .returned, .turn]

theorem dispatch_refines_nested : ∃ t a, run step {} nestedRun = some t ∧ run registryStep {} nestedRun = some a ∧
    t.invoked = a.invoked ∧ a.invoked = [⟨0, 0⟩, ⟨1, 0⟩, ⟨1, 1⟩] := by
  obtain ⟨t, hr, ht⟩ : ∃ t, run step {} nestedRun = some t ∧ t.invoked = [⟨0, 0⟩, ⟨1, 0⟩, ⟨1, 1⟩] := ⟨_, rfl, rfl⟩
  obtain ⟨a, ha, hinv⟩ := dispatch_refines hr (by decide)
  exact ⟨t, a, hr, ha, hinv, hinv.symm.trans ht⟩

/-- Listener 0 is called once, and dispatches again: the nested dispatch takes it out of the
    array, and listener 1 does not get its turn in the outer one. -/
def skippingRun : List (Ev Nat) :=
  [.add 0 false true, .add 1 false false, .add 2 false false, .dispatch, .turn,
    .dispatch, .turn, .returned, .turn, .returned, .turn, .returned, .turn, .returned, .turn]

theorem listener_skipped : ∃ t a, run step {} skippingRun = some t ∧ run registryStep {} skippingRun = some a ∧ t.frames = [] ∧
    t.invoked = [⟨0, 0⟩, ⟨1, 1⟩, ⟨1, 2⟩, ⟨0, 2⟩] ∧ a.invoked = [⟨0, 0⟩, ⟨1, 1⟩, ⟨1, 2⟩, ⟨0, 1⟩, ⟨0, 2⟩] :=
  ⟨_, _, rfl, rfl, rfl, rfl, rfl⟩

/-- After a nested dispatch a listener is added in place, and the outer dispatch calls it. -/
example : ∃ t a, run step {} [.add 0 false false, .dispatch, .turn, .dispatch, .turn, .returned, .turn, .add 1 false false, .returned, .turn] =
      some t ∧ t.invoked = [⟨0, 0⟩, ⟨1, 0⟩, ⟨0, 1⟩] ∧
    run registryStep {} [.add 0 false false, .dispatch, .turn, .dispatch, .turn, .returned, .turn, .add 1 false false, .returned, .turn] =
      some a ∧ a.invoked = [⟨0, 0⟩, ⟨1, 0⟩] :=
  ⟨_, _, rfl, rfl, rfl, rfl⟩

/-- A listener that is called once adds itself again, and is lost. -/
example : ∃ t a, run step {} [.add 0 false true, .dispatch, .turn, .add 0 false true, .returned, .turn] = some t ∧ t.current = [] ∧
    run registryStep {} [.add 0 false true, .dispatch, .turn, .add 0 false true, .returned, .turn] = some a ∧
      a.registered.map (·.id) = [1] :=
  ⟨_, _, rfl, rfl, rfl, rfl⟩

end Aworker.EventTarget
