/-
  Aworker.Loader.ModuleWrap — finding the wrap of a module (module_wrap.cc: `GetFromModule`,
  `ResolveCallback`, the constructor and the destructor; immortal.h: `hash_to_module_map`).

  The map has the identity hash of a module for its key, and V8 may give one hash to several
  modules. The constructor overwrites what it finds under the hash, and the destructor erases
  it, whichever wrap it is. Wraps are numbered as they are made. A module is compiled for its
  wrap, so no two wraps that live have the same one.

  Main results: `found_iff`, `no_dangling`; a trace: `other_found`.
-/

import Mathlib
import Aworker.Lib.Run

namespace Aworker.ModuleWrap

open Aworker.Lib List Function

variable {M : Type}

structure Wrap (M : Type) where
  module : M
  /-- the promises of the imports, by specifier -/
  resolveCache : String → Option Nat := fun _ => none
  linked : Bool := false
  live : Bool := true

/-- A promise that is fulfilled has a wrap for its result. -/
inductive Promise where
  | pending
  | rejected
  | fulfilled (wrap : Nat)

structure Immortal (M : Type) where
  wraps : List (Wrap M) := []
  promises : List Promise := []
  hashToModuleMap : Int → Option Nat := fun _ => none

inductive Ev (M : Type) where
  | construct (m : M)
  | destroy (wrap : Nat)
  /-- `Link` gets a promise for a specifier -/
  | request (wrap : Nat) (specifier : String)
  /-- it has got all of them -/
  | linked (wrap : Nat)
  | settle (promise : Nat) (result : Option Nat)

inductive Resolved (M : Type) where
  /-- a null pointer, or a `CHECK` -/
  | crash
  | empty
  | module (m : M)

variable (hash : M → Int)

def getFromModule (s : Immortal M) (m : M) : Option Nat := s.hashToModuleMap (hash m)

/-- `ResolveCallback`, once the wrap of the referrer is found. -/
def resolveFrom (s : Immortal M) (wrap : Nat) (specifier : String) : Resolved M :=
  match s.wraps[wrap]? with
  | none => .crash
  | some w =>
    if w.linked then
      match w.resolveCache specifier with
      | none => .empty
      | some p =>
        match s.promises[p]? with
        | some (.fulfilled target) => (s.wraps[target]?.map (Resolved.module ·.module)).getD .empty
        | _ => .crash
    else .crash

def resolveCallback (s : Immortal M) (referrer : M) (specifier : String) : Resolved M :=
  match getFromModule hash s referrer with
  | none => .crash
  | some wrap => resolveFrom s wrap specifier

def Immortal.isLive (s : Immortal M) (n : Nat) (m : M) : Prop := ∃ w, s.wraps[n]? = some w ∧ w.live = true ∧ w.module = m

def construct (s : Immortal M) (m : M) : Immortal M :=
  { s with
    wraps := s.wraps ++ [{ module := m }]
    hashToModuleMap := Function.update s.hashToModuleMap (hash m) (some s.wraps.length) }

def destroy (s : Immortal M) (n : Nat) (w : Wrap M) : Immortal M :=
  { s with
    wraps := s.wraps.set n { w with live := false }
    hashToModuleMap := Function.update s.hashToModuleMap (hash w.module) none }

/-- Something happens to a wrap that lives. -/
def Immortal.onLive (s : Immortal M) (n : Nat) (f : Wrap M → Immortal M) : Option (Immortal M) :=
  match s.wraps[n]? with
  | some w => if w.live then some (f w) else none
  | none => none

def step [DecidableEq M] (s : Immortal M) : Ev M → Option (Immortal M)
  | .construct m => if s.wraps.any (fun w => w.live && w.module = m) then none else some (construct hash s m)
  | .destroy n => s.onLive n (destroy hash s n)
  | .request n specifier => s.onLive n fun w =>
      { s with
        wraps := s.wraps.set n { w with resolveCache := Function.update w.resolveCache specifier (some s.promises.length) }
        promises := s.promises ++ [.pending] }
  | .linked n => s.onLive n fun w => { s with wraps := s.wraps.set n { w with linked := true } }
  | .settle p result => some { s with promises := s.promises.set p (result.elim .rejected .fulfilled) }

/-! ## Each module with its wrap -/

/-- Every module that lives finds its wrap, and its imports are those of its wrap. -/
def Found (s : Immortal M) : Prop :=
  ∀ n m, s.isLive n m → getFromModule hash s m = some n ∧
    ∀ specifier, resolveCallback hash s m specifier = resolveFrom s n specifier

/-- No module that lives has the hash of the new one. -/
def Fresh (s : Immortal M) : Ev M → Prop
  | .construct m => ∀ w ∈ s.wraps, w.live = true → hash w.module ≠ hash m
  | _ => True

instance (s : Immortal M) : (e : Ev M) → Decidable (Fresh hash s e)
  | .construct _ => inferInstanceAs (Decidable (∀ _ ∈ _, _))
  | .destroy _ | .request _ _ | .linked _ | .settle _ _ => isTrue trivial

variable {s s' : Immortal M} {n : Nat} {m : M} {w : Wrap M}

theorem found_of_get (h : ∀ n m, s.isLive n m → s.hashToModuleMap (hash m) = some n) : Found hash s := by
  intro n m hn
  refine ⟨h n m hn, fun specifier => ?_⟩
  rw [resolveCallback, getFromModule, h n m hn]

theorem Found.get (h : Found hash s) (hn : s.isLive n m) : s.hashToModuleMap (hash m) = some n := (h n m hn).1

theorem Found.inj (h : Found hash s) {n' : Nat} {m' : M} (hn : s.isLive n m) (hn' : s.isLive n' m') (he : hash m = hash m') : n = n' := by
  have hget := h.get hash hn
  rw [he, h.get hash hn'] at hget
  exact (Option.some.inj hget).symm

theorem construct_live {n' : Nat} {m' : M} (h : (construct hash s m).isLive n' m') : s.isLive n' m' ∨ n' = s.wraps.length ∧ m' = m := by
  obtain ⟨w, hw, hlive, rfl⟩ := h
  rcases Nat.lt_trichotomy n' s.wraps.length with hlt | rfl | hgt
  · rw [construct, getElem?_append_left hlt] at hw
    exact Or.inl ⟨w, hw, hlive, rfl⟩
  · simp only [construct, getElem?_concat_length, Option.some.injEq] at hw
    exact Or.inr ⟨rfl, hw ▸ rfl⟩
  · have hlen := (List.getElem?_eq_some_iff.mp hw).1
    rw [construct, length_append, length_singleton] at hlen
    omega

theorem construct_found (h : Found hash s) : Found hash (construct hash s m) ↔ Fresh hash s (.construct m) := by
  have hnew : (construct hash s m).isLive s.wraps.length m := ⟨{ module := m }, by simp [construct], rfl, rfl⟩
  constructor
  · intro hf w hw hlive he
    obtain ⟨n, hlt, hget⟩ := mem_iff_getElem.mp hw
    have hold : (construct hash s m).isLive n w.module := by
      refine ⟨w, ?_, hlive, rfl⟩
      rw [construct, getElem?_append_left hlt, getElem?_eq_getElem hlt, hget]
    exact absurd (hf.inj hash hold hnew he) (Nat.ne_of_lt hlt)
  · intro hfresh
    refine found_of_get hash fun n' m' hn' => ?_
    rcases construct_live hash hn' with hold | ⟨rfl, rfl⟩
    · obtain ⟨w, hw, hlive, rfl⟩ := hold
      have hne := hfresh w (mem_of_getElem? hw) hlive
      exact (update_of_ne hne ..).trans (h.get hash ⟨w, hw, hlive, rfl⟩)
    · exact update_self ..

theorem set_live {promises : List Promise} {map : Int → Option Nat} {w' : Wrap M} {n' : Nat} {m' : M} (hw : s.wraps[n]? = some w)
    (h : Immortal.isLive { wraps := s.wraps.set n w', promises, hashToModuleMap := map } n' m') (hm : w'.module = w.module)
    (hl : w'.live = true → w.live = true) :
    s.isLive n' m' ∧ (n' = n → w'.live = true) := by
  obtain ⟨x, hx, hlive, rfl⟩ := h
  have hlt := (List.getElem?_eq_some_iff.mp hw).1
  rw [getElem?_set] at hx
  by_cases hn : n = n'
  · subst hn
    rw [if_pos rfl, if_pos hlt] at hx
    cases hx
    exact ⟨⟨w, hw, hl hlive, hm.symm⟩, fun _ => hlive⟩
  · rw [if_neg hn] at hx
    exact ⟨⟨x, hx, hlive, rfl⟩, fun he => absurd he.symm hn⟩

theorem destroy_found (h : Found hash s) (hw : s.wraps[n]? = some w) (hlive : w.live = true) : Found hash (destroy hash s n w) := by
  refine found_of_get hash fun n' m' hn' => ?_
  obtain ⟨hold, hdead⟩ := set_live hw hn' rfl nofun
  have hne : hash m' ≠ hash w.module := by
    intro he
    exact absurd (hdead (h.inj hash hold ⟨w, hw, hlive, rfl⟩ he)) Bool.false_ne_true
  exact (update_of_ne hne ..).trans (h.get hash hold)

theorem onLive_some {f : Wrap M → Immortal M} (hs : s.onLive n f = some s') : ∃ w, s.wraps[n]? = some w ∧ w.live = true ∧ s' = f w := by
  unfold Immortal.onLive at hs
  split at hs
  · next w hw =>
    obtain ⟨hlive, hs⟩ := Option.ite_none_right_eq_some.mp hs
    exact ⟨w, hw, hlive, (Option.some.inj hs).symm⟩
  · cases hs

/-- One step keeps every module with its wrap exactly if it makes none with a hash that is taken. -/
theorem step_found [DecidableEq M] (h : Found hash s) {e : Ev M} (hs : step hash s e = some s') : Found hash s' ↔ Fresh hash s e := by
  cases e with
  | construct m =>
    obtain ⟨-, hs⟩ := Option.ite_none_left_eq_some.mp hs
    cases hs
    exact construct_found hash h
  | destroy n =>
    obtain ⟨w, hw, hlive, rfl⟩ := onLive_some hs
    exact iff_of_true (destroy_found hash h hw hlive) trivial
  | request n specifier =>
    obtain ⟨w, hw, -, rfl⟩ := onLive_some hs
    exact iff_of_true (found_of_get hash fun _ _ hn => h.get hash (set_live hw hn rfl id).1) trivial
  | linked n =>
    obtain ⟨w, hw, -, rfl⟩ := onLive_some hs
    exact iff_of_true (found_of_get hash fun _ _ hn => h.get hash (set_live hw hn rfl id).1) trivial
  | settle p result =>
    cases hs
    exact iff_of_true (found_of_get hash fun _ _ hn => h.get hash hn) trivial

/-- Whatever is made and destroyed, in whatever order. -/
theorem found_iff [DecidableEq M] (hash : M → Int) (es : List (Ev M)) (t : Immortal M) (hr : run (step hash) {} es = some t) :
    (∀ u, Reached (step hash) {} es u → Found hash u) ↔ Along (step hash) (Fresh hash) {} es := by
  have hstart : Found hash ({} : Immortal M) := found_of_get hash fun n m ⟨w, hw, _⟩ => by simp at hw
  exact reached_iff_along (I := fun _ => True) (A := fun _ _ => True) (fun _ _ _ _ _ _ => trivial)
    (fun _ _ _ _ _ h hs => step_found hash h hs) trivial hstart (along_true _ es) hr

/-- Module 0 imports module 1 and is destroyed; a module with its hash is made. -/
def importRun : List (Ev Nat) :=
  [.construct 0, .construct 1, .request 0 "./b.mjs", .settle 0 (some 1), .linked 0, .destroy 0, .construct 2]

theorem found_imports : ∃ t, run (step (· % 2 : Nat → Int)) {} importRun = some t ∧
    ∀ u, Reached (step (· % 2 : Nat → Int)) {} importRun u → Found (· % 2 : Nat → Int) u :=
  ⟨_, rfl, (found_iff (· % 2 : Nat → Int) importRun _ rfl).mpr (by decide)⟩

/-- Both have the hash 7, and import different modules. -/
def collidingRun : List (Ev Nat) :=
  [.construct 0, .request 0 "./b.mjs", .settle 0 (some 0), .linked 0, .construct 1, .request 1 "./b.mjs", .settle 1 (some 1), .linked 1]

/-- Module 0 gets the import of module 1, and no wrap when module 1 is destroyed. -/
theorem other_found : ∃ s s', run (step fun _ => 7) {} collidingRun = some s ∧ step (fun _ => 7) s (.destroy 1) = some s' ∧
    s.isLive 0 0 ∧ getFromModule (fun _ => 7) s 0 = some 1 ∧ resolveCallback (fun _ => 7) s 0 "./b.mjs" = .module 1 ∧
    resolveFrom s 0 "./b.mjs" = .module 0 ∧ s'.isLive 0 0 ∧ getFromModule (fun _ => 7) s' 0 = none ∧
    resolveCallback (fun _ => 7) s' 0 "./b.mjs" = .crash :=
  ⟨_, _, rfl, rfl, ⟨_, rfl, rfl, rfl⟩, rfl, rfl, rfl, ⟨_, rfl, rfl, rfl⟩, rfl, rfl⟩

/-! ## Hashes that collide -/

/-- What the map leads to is alive and has the hash. -/
def Leads (s : Immortal M) : Prop := ∀ k n, s.hashToModuleMap k = some n → ∃ m, s.isLive n m ∧ hash m = k

theorem live_append (h : s.isLive n m) (w : Wrap M) : ∃ x, (s.wraps ++ [w])[n]? = some x ∧ x.live = true ∧ x.module = m := by
  obtain ⟨x, hx, hlive, hm⟩ := h
  exact ⟨x, by rw [getElem?_append_left (List.getElem?_eq_some_iff.mp hx).1, hx], hlive, hm⟩

theorem live_set {w' : Wrap M} {n' : Nat} (hw : s.wraps[n]? = some w) (h : s.isLive n' m) (hm : w'.module = w.module)
    (hl : n' = n → w'.live = true) : ∃ x, (s.wraps.set n w')[n']? = some x ∧ x.live = true ∧ x.module = m := by
  obtain ⟨x, hx, hlive, rfl⟩ := h
  by_cases hn : n = n'
  · subst hn
    obtain rfl := Option.some.inj (hw.symm.trans hx)
    exact ⟨w', by rw [getElem?_set_self (List.getElem?_eq_some_iff.mp hw).1], hl rfl, hm⟩
  · exact ⟨x, by rw [getElem?_set_ne hn, hx], hlive, rfl⟩

theorem step_leads [DecidableEq M] (h : Leads hash s) {e : Ev M} (hs : step hash s e = some s') : Leads hash s' := by
  intro k n' hk
  cases e with
  | construct m =>
    obtain ⟨-, hs⟩ := Option.ite_none_left_eq_some.mp hs
    cases hs
    by_cases he : k = hash m
    · subst he
      simp only [construct, update_self, Option.some.injEq] at hk
      subst hk
      exact ⟨m, ⟨{ module := m }, by simp [construct], rfl, rfl⟩, rfl⟩
    · obtain ⟨m', hm', he'⟩ := h k n' ((update_of_ne he ..).symm.trans hk)
      exact ⟨m', live_append hm' _, he'⟩
  | destroy n =>
    obtain ⟨w, hw, -, rfl⟩ := onLive_some hs
    have he : k ≠ hash w.module := by
      rintro rfl
      cases (update_self ..).symm.trans hk
    obtain ⟨m', hm', he'⟩ := h k n' ((update_of_ne he ..).symm.trans hk)
    refine ⟨m', live_set hw hm' rfl ?_, he'⟩
    -- another hash, so it is another wrap
    rintro rfl
    obtain ⟨x, hx, -, rfl⟩ := hm'
    rw [Option.some.inj (hw.symm.trans hx)] at he
    exact absurd he'.symm he
  | request n specifier | linked n =>
    obtain ⟨w, hw, hlive, rfl⟩ := onLive_some hs
    obtain ⟨m', hm', he'⟩ := h k n' hk
    exact ⟨m', live_set hw hm' rfl fun _ => hlive, he'⟩
  | settle p result =>
    cases hs
    exact h k n' hk

/-- Whatever collides: the wrap that is found has not been destroyed, and its module has the hash. -/
theorem no_dangling [DecidableEq M] (hash : M → Int) (es : List (Ev M)) {t : Immortal M} (hr : run (step hash) {} es = some t)
    {m : M} {n : Nat} (hn : getFromModule hash t m = some n) : ∃ m', t.isLive n m' ∧ hash m' = hash m := by
  have h : Leads hash t := run_inv (Q := fun _ _ => True) (fun _ _ _ h _ hs => step_leads hash h hs) (fun _ _ hk => absurd hk (Option.some_ne_none _).symm) (along_true _ es) hr
  exact h _ n hn

theorem no_dangling_colliding : ∃ t, run (step fun _ => 7) {} collidingRun = some t ∧
    ∃ m', t.isLive 1 m' ∧ (fun _ : Nat => (7 : Int)) m' = 7 := ⟨_, rfl, no_dangling (fun _ => 7) collidingRun rfl (m := 0) rfl⟩

end Aworker.ModuleWrap
