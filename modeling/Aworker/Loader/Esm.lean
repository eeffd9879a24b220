/-
  Aworker.Loader.Esm — linking ES modules (lib/loader/esm.js: `constructModule`, `linkModule`,
  `dynamicImport`; module_wrap.cc: `Link`, `Instantiate`, `ResolveCallback`).

  `linkModule` puts a module into `moduleLinkingSet`, calls `link` on it, awaits the promises
  its specifiers resolve to, calls `linkModule` on every module it imports, awaits those
  calls, and instantiates it. On a module that is already in the set it returns at once,
  whether or not that module has been linked and instantiated. Nothing ever leaves the set.

  A module is known by its file name: `moduleMap` holds one module for each. A graph gives
  the imports of every file that can be read and compiled. Promise reactions run in any
  order; V8's verdict on an instantiation is part of the event.

  Main results: `linked_before_instantiate`, `diamond_unlinked`.
-/

import Mathlib
import Aworker.Lib.Run

namespace Aworker.Esm

open Aworker.Lib List

variable {F : Type} [DecidableEq F]

/-! ## The loader -/

/-- The imports of each file that can be read and compiled; a `none` among them is a specifier
    `resolveSpecifier` throws on. -/
abbrev Graph (F : Type) := F → Option (List (Option F))

inductive PromiseState where
  | pending
  | fulfilled
  | rejected
  deriving DecidableEq

/-- The `linkModule` call that has put a module into the set. -/
inductive LinkPhase (F : Type) where
  /-- not in the set -/
  | unlinked
  /-- awaits the promises of `module.link` -/
  | resolving
  /-- awaits the calls it has made on imports that were not in the set -/
  | linking (waits : List F)
  /-- `instantiate()` has returned -/
  | instantiated
  | failed
  deriving DecidableEq

inductive ImportPhase (F : Type) where
  | constructed (m : F)
  /-- awaits the call of `linkModule` it has made -/
  | linking (m : F)
  /-- `linkModule` has returned at once -/
  | linked (m : F)
  | executed (m : F)
  | rejected
  deriving DecidableEq

structure Loader (F : Type) where
  /-- in the order of insertion -/
  moduleLinkingSet : List F := []
  phase : F → LinkPhase F := fun _ => .unlinked
  /-- `_resolve_cache`: a promise for each import -/
  promises : F → List PromiseState := fun _ => []
  imports : List (ImportPhase F) := []

variable (g : Graph F)

def requests (m : F) : List (Option F) := (g m).getD []

def children (m : F) : List F := (requests g m).filterMap id

/-- What the promise of `resolver` comes to: the module of a file that can be read. -/
def outcome : Option F → PromiseState
  | some f => if (g f).isSome then .fulfilled else .rejected
  | none => .rejected

namespace Loader

/-- `moduleLinkingSet.add(module)` and `module.link(resolver)` -/
def startLink (s : Loader F) (m : F) : Loader F :=
  { s with
    moduleLinkingSet := s.moduleLinkingSet ++ [m]
    phase := Function.update s.phase m .resolving
    promises := Function.update s.promises m (List.replicate (requests g m).length .pending) }

/-- `modules.map(linkModule)`, with the calls that did not return at once. -/
def linkAll : List F → Loader F → Loader F × List F
  | [], s => (s, [])
  | c :: cs, s =>
    if c ∈ s.moduleLinkingSet then linkAll cs s
    else ((linkAll cs (s.startLink g c)).1, c :: (linkAll cs (s.startLink g c)).2)

def setPhase (s : Loader F) (m : F) (p : LinkPhase F) : Loader F := { s with phase := Function.update s.phase m p }

def setPromise (s : Loader F) (m : F) (k : Nat) (p : PromiseState) : Loader F :=
  { s with promises := Function.update s.promises m ((s.promises m).set k p) }

omit [DecidableEq F] in
def setImport (s : Loader F) (i : Nat) (p : ImportPhase F) : Loader F := { s with imports := s.imports.set i p }

end Loader

inductive LoaderEv (F : Type) where
  /-- `dynamicImport`; `none` is a specifier that is not supported -/
  | dynamicImport (target : Option F)
  /-- the import goes on after `constructModule` -/
  | linkModule (i : Nat)
  /-- a promise of `resolver` settles -/
  | settle (m : F) (k : Nat)
  /-- all of them are fulfilled, and the call goes on to the imports -/
  | resume (m : F)
  /-- something the call awaits is rejected -/
  | fail (m : F)
  /-- `module.instantiate()`, with V8's verdict -/
  | instantiate (m : F) (ok : Bool)
  | execute (i : Nat)
  | reject (i : Nat)
  deriving DecidableEq

/-- What `constructModule` comes to for an import. -/
def imported : Option F → ImportPhase F
  | some f => if (g f).isSome then .constructed f else .rejected
  | none => .rejected

def loaderStep (s : Loader F) : LoaderEv F → Option (Loader F)
  | .dynamicImport target => some { s with imports := s.imports ++ [imported g target] }
  | .linkModule i =>
    match s.imports[i]? with
    | some (.constructed m) =>
      if m ∈ s.moduleLinkingSet then some (s.setImport i (.linked m)) else some ((s.startLink g m).setImport i (.linking m))
    | _ => none
  | .settle m k =>
    match (s.promises m)[k]?, (requests g m)[k]? with
    | some .pending, some request => some (s.setPromise m k (outcome g request))
    | _, _ => none
  | .resume m =>
    if s.phase m = .resolving ∧ (∀ p ∈ s.promises m, p = .fulfilled) then
      let linked := s.linkAll g (children g m)
      some (linked.1.setPhase m (.linking linked.2))
    else none
  | .fail m =>
    match s.phase m with
    | .resolving => if .rejected ∈ s.promises m then some (s.setPhase m .failed) else none
    | .linking waits => if ∃ c ∈ waits, s.phase c = .failed then some (s.setPhase m .failed) else none
    | _ => none
  | .instantiate m ok =>
    match s.phase m with
    | .linking waits =>
      if ∀ c ∈ waits, s.phase c = .instantiated then some (s.setPhase m (if ok then .instantiated else .failed)) else none
    | _ => none
  | .execute i =>
    match s.imports[i]? with
    | some (.linked m) => some (s.setImport i (.executed m))
    | some (.linking m) => if s.phase m = .instantiated then some (s.setImport i (.executed m)) else none
    | _ => none
  | .reject i =>
    match s.imports[i]? with
    | some (.linking m) => if s.phase m = .failed then some (s.setImport i .rejected) else none
    | _ => none

/-! ## What a step does -/

inductive LoaderStep (s : Loader F) : LoaderEv F → Loader F → Prop
  | dynamicImport (target : Option F) :
      LoaderStep s (.dynamicImport target) { s with imports := s.imports ++ [imported g target] }
  /-- `linkModule` on a module that is in the set already -/
  | again {i : Nat} {m : F} (hi : s.imports[i]? = some (.constructed m)) (hm : m ∈ s.moduleLinkingSet) :
      LoaderStep s (.linkModule i) (s.setImport i (.linked m))
  | first {i : Nat} {m : F} (hi : s.imports[i]? = some (.constructed m)) (hm : m ∉ s.moduleLinkingSet) :
      LoaderStep s (.linkModule i) ((s.startLink g m).setImport i (.linking m))
  | settle {m : F} {k : Nat} {r : Option F} (hp : (s.promises m)[k]? = some .pending) (hr : (requests g m)[k]? = some r) :
      LoaderStep s (.settle m k) (s.setPromise m k (outcome g r))
  | resume {m : F} (hm : s.phase m = .resolving) (hp : ∀ p ∈ s.promises m, p = .fulfilled) :
      LoaderStep s (.resume m) ((s.linkAll g (children g m)).1.setPhase m (.linking (s.linkAll g (children g m)).2))
  | unresolved {m : F} (hm : s.phase m = .resolving) (hp : .rejected ∈ s.promises m) : LoaderStep s (.fail m) (s.setPhase m .failed)
  | unlinked {m c : F} {waits : List F} (hm : s.phase m = .linking waits) (hc : c ∈ waits) (hf : s.phase c = .failed) :
      LoaderStep s (.fail m) (s.setPhase m .failed)
  | instantiate {m : F} {waits : List F} (ok : Bool) (hm : s.phase m = .linking waits) (hw : ∀ c ∈ waits, s.phase c = .instantiated) :
      LoaderStep s (.instantiate m ok) (s.setPhase m (if ok then .instantiated else .failed))
  | executeAgain {i : Nat} {m : F} (hi : s.imports[i]? = some (.linked m)) : LoaderStep s (.execute i) (s.setImport i (.executed m))
  | execute {i : Nat} {m : F} (hi : s.imports[i]? = some (.linking m)) (hm : s.phase m = .instantiated) :
      LoaderStep s (.execute i) (s.setImport i (.executed m))
  | reject {i : Nat} {m : F} (hi : s.imports[i]? = some (.linking m)) (hm : s.phase m = .failed) :
      LoaderStep s (.reject i) (s.setImport i .rejected)

variable {g} {s s' : Loader F}

variable {e : LoaderEv F}

theorem step_cases (h : loaderStep g s e = some s') : LoaderStep g s e s' := by
  cases e with simp only [loaderStep] at h
  | dynamicImport target =>
    cases h
    exact .dynamicImport target
  | linkModule i =>
    split at h
    · next m hi =>
      split at h <;> rename_i hm <;> cases h
      · exact .again hi hm
      · exact .first hi hm
    · cases h
  | settle m k =>
    split at h
    · next hp hr => cases h; exact .settle hp hr
    · cases h
  | resume m =>
    split at h
    · next hm => cases h; exact .resume hm.1 hm.2
    · cases h
  | fail m =>
    split at h
    · next hm =>
      split at h
      · next hp => cases h; exact .unresolved hm hp
      · cases h
    · next waits hm =>
      split at h
      · next hc =>
        obtain ⟨c, hc, hf⟩ := hc
        cases h
        exact .unlinked hm hc hf
      · cases h
    · cases h
  | instantiate m ok =>
    split at h
    · next waits hm =>
      split at h
      · next hw => cases h; exact .instantiate ok hm hw
      · cases h
    · cases h
  | execute i =>
    split at h
    · next m hi => cases h; exact .executeAgain hi
    · next m hi =>
      split at h
      · next hm => cases h; exact .execute hi hm
      · cases h
    · cases h
  | reject i =>
    split at h
    · next m hi =>
      split at h
      · next hm => cases h; exact .reject hi hm
      · cases h
    · cases h

@[simp] theorem startLink_set (s : Loader F) (m : F) : (s.startLink g m).moduleLinkingSet = s.moduleLinkingSet ++ [m] := rfl

theorem linkAll_set (cs : List F) (s : Loader F) :
    (s.linkAll g cs).1.moduleLinkingSet = s.moduleLinkingSet ++ (s.linkAll g cs).2 := by
  fun_induction Loader.linkAll g cs s with
  | case1 s => simp
  | case2 c cs s hc ih => exact ih
  | case3 c cs s hc ih => simpa [Loader.startLink] using ih

theorem mem_waits (cs : List F) (s : Loader F) {x : F} :
    x ∈ (s.linkAll g cs).2 ↔ x ∈ cs ∧ x ∉ s.moduleLinkingSet := by
  fun_induction Loader.linkAll g cs s with
  | case1 s => simp
  | case2 c cs s hc ih =>
    rw [ih]
    constructor
    · exact fun ⟨h, hx⟩ => ⟨mem_cons_of_mem _ h, hx⟩
    · rintro ⟨h, hx⟩
      rcases mem_cons.mp h with rfl | h
      · exact absurd hc hx
      · exact ⟨h, hx⟩
  | case3 c cs s hc ih =>
    rw [mem_cons, ih, startLink_set, mem_append, mem_singleton]
    by_cases hx : x = c
    · simp [hx, hc]
    · simp [hx]

/-- What `linkAll` leaves alone, and what it puts for a module it starts on. -/
theorem linkAll_module (cs : List F) (s : Loader F) (x : F) :
    if x ∈ (s.linkAll g cs).2 then
      (s.linkAll g cs).1.phase x = .resolving ∧
      (s.linkAll g cs).1.promises x = List.replicate (requests g x).length .pending
    else (s.linkAll g cs).1.phase x = s.phase x ∧ (s.linkAll g cs).1.promises x = s.promises x := by
  fun_induction Loader.linkAll g cs s with
  | case1 s => simp
  | case2 c cs s hc ih => exact ih
  | case3 c cs s hc ih =>
    have hfresh : c ∉ ((s.startLink g c).linkAll g cs).2 := by
      rw [mem_waits]
      simp [Loader.startLink]
    by_cases hx : x = c
    · subst hx
      simpa [hfresh, Loader.startLink] using ih
    · simpa [hx, Loader.startLink] using ih

section
variable (g)

def Imports (m n : F) : Prop := n ∈ children g m

instance : DecidableRel (Imports g) := fun m n => inferInstanceAs (Decidable (n ∈ children g m))

/-- `n` is reached from `m` through imports. -/
def Reach : F → F → Prop := Relation.ReflTransGen (Imports g)

/-- The same, without going through a module of `cut` on the way or ending in one. -/
def ReachOutside (cut : F → Prop) : F → F → Prop := Relation.ReflTransGen fun m n => Imports g m n ∧ ¬ cut n

end

/-- What the checks of `ResolveCallback` ask of a module and its promises. -/
def Linked (s : Loader F) (n : F) : Prop := n ∈ s.moduleLinkingSet ∧ ∀ p ∈ s.promises n, p = .fulfilled

instance (s : Loader F) (n : F) : Decidable (Linked s n) := inferInstanceAs (Decidable (_ ∧ _))

variable (g) in
/-- A call goes on to the imports of its module only when everything the module reaches is
    linked; itself and the imports it starts to link apart, with what is behind them. -/
def LinksInOrder (s : Loader F) : LoaderEv F → Prop
  | .resume m => ∀ n, ReachOutside g (fun x => x = m ∨ x ∈ children g m ∧ x ∉ s.moduleLinkingSet) m n → Linked s n
  | _ => True

variable {m n : F}

omit [DecidableEq F] in
theorem reach_last_cut (cut : F → Prop) (hm : cut m) (h : Reach g m n) : ∃ x, cut x ∧ ReachOutside g cut x n := by
  induction h with
  | refl => exact ⟨m, hm, .refl⟩
  | @tail b c _ hbc ih =>
    by_cases hc : cut c
    · exact ⟨c, hc, .refl⟩
    · obtain ⟨x, hx, hr⟩ := ih
      exact ⟨x, hx, hr.tail ⟨hbc, hc⟩⟩

theorem linked_startLink (hm : m ∉ s.moduleLinkingSet) (hn : Linked s n) : Linked (s.startLink g m) n := by
  have hne : n ≠ m := fun he => hm (he ▸ hn.1)
  exact ⟨mem_append_left _ hn.1, by simpa [Loader.startLink, hne] using hn.2⟩

theorem linked_linkAll (cs : List F) (hn : Linked s n) : Linked (s.linkAll g cs).1 n := by
  have hsame := linkAll_module (g := g) cs s n
  rw [if_neg fun hw => ((mem_waits cs s).mp hw).2 hn.1] at hsame
  refine ⟨?_, by simpa [hsame.2] using hn.2⟩
  rw [linkAll_set]
  exact mem_append_left _ hn.1

/-- A module whose promises are all fulfilled stays so: `link` is called on it only once. -/
theorem linked_step (h : LoaderStep g s e s') (hn : Linked s n) : Linked s' n := by
  cases h with
  | first hi hm => exact linked_startLink (g := g) hm hn
  | @settle m k r hp hr =>
    have hne : n ≠ m := by
      rintro rfl
      exact absurd (hn.2 _ (mem_of_getElem? hp)) (by decide)
    exact ⟨hn.1, by simpa [Loader.setPromise, hne] using hn.2⟩
  | resume hm hp => exact linked_linkAll _ hn
  | _ => exact hn

/-- What the loader knows of a module by its phase. -/
structure Ordered (g : Graph F) (s : Loader F) : Prop where
  linking : ∀ m waits, s.phase m = .linking waits → ∀ n, ReachOutside g (fun x => x = m ∨ x ∈ waits) m n → Linked s n
  instantiated : ∀ m, s.phase m = .instantiated → ∀ n, Reach g m n → Linked s n

omit [DecidableEq F] in
theorem ordered_reach (ho : Ordered g s) {waits : List F} (hm : s.phase m = .linking waits)
    (hw : ∀ c ∈ waits, s.phase c = .instantiated) (hn : Reach g m n) : Linked s n := by
  obtain ⟨x, hx, hr⟩ := reach_last_cut (fun x => x = m ∨ x ∈ waits) (Or.inl rfl) hn
  rcases hx with rfl | hx
  · exact ho.linking x waits hm n hr
  · exact ho.instantiated x (hw x hx) n (hr.lift id fun _ _ h => h.1)

omit [DecidableEq F] in
theorem ordered_frame (ho : Ordered g s) (hl : ∀ n, Linked s n → Linked s' n)
    (hlinking : ∀ m waits, s'.phase m = .linking waits → s.phase m = .linking waits)
    (hinst : ∀ m, s'.phase m = .instantiated → s.phase m = .instantiated) : Ordered g s' where
  linking m waits hm n hn := hl n (ho.linking m waits (hlinking m waits hm) n hn)
  instantiated m hm n hn := hl n (ho.instantiated m (hinst m hm) n hn)

theorem ordered_setPhase (ho : Ordered g s) {p : LinkPhase F}
    (hlinking : ∀ waits, p = .linking waits → ∀ n, ReachOutside g (fun x => x = m ∨ x ∈ waits) m n → Linked s n)
    (hinst : p = .instantiated → ∀ n, Reach g m n → Linked s n) : Ordered g (s.setPhase m p) where
  linking x waits hx n hn := by
    by_cases he : x = m
    · subst he
      exact hlinking waits (by simpa [Loader.setPhase] using hx) n hn
    · exact ho.linking x waits (by simpa [Loader.setPhase, he] using hx) n hn
  instantiated x hx n hn := by
    by_cases he : x = m
    · subst he
      exact hinst (by simpa [Loader.setPhase] using hx) n hn
    · exact ho.instantiated x (by simpa [Loader.setPhase, he] using hx) n hn

theorem ordered_startLink (ho : Ordered g s) (hm : m ∉ s.moduleLinkingSet) : Ordered g (s.startLink g m) := by
  refine ordered_frame ho (fun n => linked_startLink hm) (fun x waits hx => ?_) (fun x hx => ?_)
  all_goals
    by_cases he : x = m
    · simp [Loader.startLink, he] at hx
    · simpa [Loader.startLink, he] using hx

theorem ordered_linkAll (ho : Ordered g s) (cs : List F) : Ordered g (s.linkAll g cs).1 := by
  fun_induction Loader.linkAll g cs s with
  | case1 s => exact ho
  | case2 c cs s hc ih => exact ih ho
  | case3 c cs s hc ih => exact ih (ordered_startLink ho hc)

theorem ordered_step (ho : Ordered g s) (hq : LinksInOrder g s e) (h : LoaderStep g s e s') : Ordered g s' := by
  have hlinked : ∀ n, Linked s n → Linked s' n := fun n => linked_step h
  cases h with
  | first hi hm => exact ordered_frame (ordered_startLink ho hm) (fun _ hn => hn) (fun _ _ h => h) (fun _ h => h)
  | @resume m hm hp =>
    -- the cut of the condition is the one of the new phase
    refine ordered_setPhase (ordered_linkAll ho _) (fun waits hw n hn => ?_) nofun
    obtain rfl := LinkPhase.linking.inj hw
    refine linked_linkAll _ (hq n ?_)
    simpa only [mem_waits] using hn
  | unresolved hm hp => exact ordered_setPhase ho nofun nofun
  | unlinked hm hc hf => exact ordered_setPhase ho nofun nofun
  | instantiate ok hm hw =>
    refine ordered_setPhase ho (fun waits h => ?_) (fun _ n => ordered_reach ho hm hw)
    cases ok <;> cases h
  | _ => exact ordered_frame ho hlinked (fun _ _ h => h) (fun _ h => h)

/-- Along a run that links in order, everything a module reaches is linked, with its promises
    fulfilled, when the module is instantiated. -/
theorem linked_before_instantiate {es : List (LoaderEv F)} {t u : Loader F} (hr : run (loaderStep g) {} es = some t)
    (hc : Along (loaderStep g) (LinksInOrder g) {} es) {m : F} {ok : Bool} (hi : loaderStep g t (.instantiate m ok) = some u)
    {n : F} (hn : Reach g m n) : Linked t n := by
  have ho : Ordered g t := by
    refine run_inv (fun s e s' ho hq hs => ordered_step ho hq (step_cases hs)) ?_ hc hr
    exact ⟨nofun, nofun⟩
  cases step_cases hi with
  | instantiate ok hm hw => exact ordered_reach ho hm hw hn

/-- Two files that import each other. -/
def cycle : Graph Bool := fun m => some [some !m]

def cycleRun : List (LoaderEv Bool) :=
  [.dynamicImport (some false), .linkModule 0, .settle false 0, .resume false, .settle true 0, .resume true]

theorem linked_before_instantiate_cycle :
    ∃ t, run (loaderStep cycle) {} cycleRun = some t ∧ (loaderStep cycle t (.instantiate true true)).isSome ∧ Linked t false := by
  refine ⟨_, rfl, rfl, @linked_before_instantiate _ _ cycle cycleRun _ _ rfl ?_ true true rfl false ?_⟩
  · refine ⟨trivial, trivial, trivial, fun n hn => ?_, trivial, fun n hn => ?_, trivial⟩
    · -- the only import is one it starts to link
      rcases hn.cases_head with rfl | ⟨c, hc, -⟩
      · decide
      · refine absurd hc ?_
        clear hn hc
        revert c
        decide
    · clear hn
      revert n
      decide
  · exact .single (by decide)

/-- `root.js` imports `a.js` and `b.js`, both import `c.js`, which imports `d.js`, which imports `e.js`. -/
def diamond : Graph (Fin 6) := fun m =>
  match m with
  | 0 => some [some 1, some 2]
  | 1 => some [some 3]
  | 2 => some [some 3]
  | 3 => some [some 4]
  | 4 => some [some 5]
  | 5 => some []

def diamondRun : List (LoaderEv (Fin 6)) :=
  [.dynamicImport (some 0), .linkModule 0, .settle 0 0, .settle 0 1, .resume 0, .settle 1 0, .settle 2 0, .resume 1, .resume 2,
   .settle 3 0]

/-- `b.js` finds `c.js` in the set and is instantiated before `c.js` has come to link `d.js`. -/
theorem diamond_unlinked :
    (∀ m, ∀ r ∈ requests diamond m, outcome diamond r = .fulfilled) ∧
    ∃ t, run (loaderStep diamond) {} diamondRun = some t ∧ (loaderStep diamond t (.instantiate 2 true)).isSome ∧
      Reach diamond 2 4 ∧ 4 ∉ t.moduleLinkingSet ∧ requests diamond 4 = [some 5] := by
  refine ⟨by decide, _, rfl, rfl, ?_, by decide, rfl⟩
  exact .head (b := 3) (by decide) (.single (by decide))

end Aworker.Esm
