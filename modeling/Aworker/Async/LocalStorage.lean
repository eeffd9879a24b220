/-
  Aworker.Async.LocalStorage — `AsyncLocalStorage` (lib/task_queue.js).

  The stores live in a map that hangs on the execution resource: the one on top of the stack
  of `Aworker.Async.ExecutionStack`. `run` puts a changed copy of the map there and, when its
  callback is over, the old one back. A new resource takes over the map of the resource it is
  created in. A program is a tree of such calls (`Prog`); its callbacks return or throw, and
  what follows may depend on what `getStore` and the callbacks gave.

  `spec` is what a storage is for. It reads no map: it knows the runs around a point of the
  program, and around each resource's creation, and in a resource's execution the latter
  count.

  (1) `eval_spec`: what `getStore` returns, and the stores every storage has after each run,
      are those of `spec`, if no resource is executed inside a run that was called in its own
      execution and changed a store (`Calm`). Inside such a run the resource carries the
      run's map (`reentrant_store`).
-/

import Mathlib
import Aworker.Async.ExecutionStack

namespace Aworker.Async

open List Function

variable {S V A : Type}

/-! ## Programs -/

/-- How a callback ends; `typeError` is a property read of `undefined`. -/
inductive Outcome (A : Type) where
  | returned (a : A)
  | threw (a : A)
  | typeError
  deriving DecidableEq

/-- Resources are numbered as they are created. -/
inductive Prog (S V A : Type) where
  | ret (a : A)
  | throw (a : A)
  | getStore (storage : S) (k : Option V → Prog S V A)
  | run (storage : S) (store : Option V) (callback : Prog S V A) (k : Outcome A → Prog S V A)
  /-- `asyncInit` of a new resource -/
  | init (k : Nat → Prog S V A)
  /-- the callback between `asyncBefore(resource)` and `asyncAfter()` -/
  | exec (resource : Nat) (callback : Prog S V A) (k : Outcome A → Prog S V A)

/-- What shows of the storages. -/
inductive Seen (S V : Type) where
  | got (storage : S) (store : Option V)
  /-- `run` is left: what `getStore` gives for every storage, if it does not throw -/
  | left (stores : S → Option (Option V))

/-! ## The code -/

/-- `async_context_mapping_symbol` of the resources, the stack, and the resources created. -/
structure Heap (S V : Type) where
  stack : ExecutionStack Nat := {}
  mapping : Resource Nat → Option (S → Option V) := fun _ => none
  made : Nat := 0
  seen : List (Seen S V) := []

/-- `globalMapping?.get(storage)` -/
def lookup (globalMapping : Option (S → Option V)) (storage : S) : Option V := globalMapping.bind (· storage)

def Heap.getStore (h : Heap S V) (storage : S) : Option (Option V) :=
  (getExecutionResource h.stack).map fun r => lookup (h.mapping r) storage

def Heap.see (h : Heap S V) (e : Seen S V) : Heap S V := { h with seen := h.seen ++ [e] }

def Heap.setMapping (h : Heap S V) (r : Resource Nat) (m : Option (S → Option V)) : Heap S V :=
  { h with mapping := Function.update h.mapping r m }

def Heap.initHook (h : Heap S V) (r : Resource Nat) : Heap S V :=
  { h.setMapping (.own h.made) (h.mapping r) with made := h.made + 1 }

section

variable [DecidableEq S] [DecidableEq V]

def eval : Prog S V A → Heap S V → Outcome A × Heap S V
  | .ret a, h => (.returned a, h)
  | .throw a, h => (.threw a, h)
  | .getStore storage k, h =>
    match h.getStore storage with
    | none => (.typeError, h)
    | some store => eval (k store) (h.see (.got storage store))
  | .run storage store callback k, h =>
    match getExecutionResource h.stack with
    | none => (.typeError, h)
    | some r =>
      let globalMapping := h.mapping r
      if store = lookup globalMapping storage then
        let (o, h') := eval callback h
        eval (k o) (h'.see (.left h'.getStore))
      else
        let (o, h') := eval callback (h.setMapping r (some (Function.update (lookup globalMapping) storage store)))
        let h'' := h'.setMapping r globalMapping
        eval (k o) (h''.see (.left h''.getStore))
  | .init k, h =>
    match getExecutionResource h.stack with
    | none => (.typeError, h)
    | some r => eval (k h.made) (h.initHook r)
  | .exec resource callback k, h =>
    let (o, h') := eval callback { h with stack := asyncBefore h.stack resource }
    eval (k o) { h' with stack := asyncAfter h'.stack }

/-! ## The runs around a point -/

structure Point (S V : Type) where
  /-- the runs that enclose it, the innermost first -/
  runs : List (S × Option V) := []
  /-- whose execution it is in -/
  current : Resource Nat := .root
  depth : Nat := 0
  /-- the resources in whose executions a run has changed a store and is not over -/
  busy : List (Resource Nat) := []

structure World (S V : Type) where
  /-- the runs that enclosed a resource's creation -/
  created : Nat → List (S × Option V) := fun _ => []
  made : Nat := 0
  seen : List (Seen S V) := []

/-- The store of the innermost run of `storage`. -/
def innermost (runs : List (S × Option V)) (storage : S) : Option V := (runs.lookup storage).join

def World.see (w : World S V) (e : Seen S V) : World S V := { w with seen := w.seen ++ [e] }

def World.create (w : World S V) (runs : List (S × Option V)) : World S V :=
  { w with created := Function.update w.created w.made runs, made := w.made + 1 }

def Point.enter (pt : Point S V) (storage : S) (store : Option V) : Point S V :=
  { pt with
    runs := (storage, store) :: pt.runs
    busy := if store = innermost pt.runs storage then pt.busy else pt.current :: pt.busy }

def Point.execute (pt : Point S V) (w : World S V) (resource : Nat) : Point S V :=
  { pt with runs := w.created resource, current := .own resource, depth := pt.depth + 1 }

def spec : Prog S V A → Point S V → World S V → Outcome A × World S V
  | .ret a, _, w => (.returned a, w)
  | .throw a, _, w => (.threw a, w)
  | .getStore storage k, pt, w =>
    spec (k (innermost pt.runs storage)) pt (w.see (.got storage (innermost pt.runs storage)))
  | .run storage store callback k, pt, w =>
    let (o, w') := spec callback (pt.enter storage store) w
    -- the stores are those from before the run
    spec (k o) pt (w'.see (.left fun s => some (innermost pt.runs s)))
  | .init k, pt, w => spec (k w.made) pt (w.create pt.runs)
  | .exec resource callback k, pt, w =>
    let (o, w') := spec callback (pt.execute w resource) w
    spec (k o) pt w'

/-- `C` holds at every execution of a resource. -/
def Executes (C : Point S V → World S V → Nat → Prop) : Prog S V A → Point S V → World S V → Prop
  | .ret _, _, _ => True
  | .throw _, _, _ => True
  | .getStore storage k, pt, w =>
    Executes C (k (innermost pt.runs storage)) pt (w.see (.got storage (innermost pt.runs storage)))
  | .run storage store callback k, pt, w =>
    Executes C callback (pt.enter storage store) w ∧
      Executes C (k (spec callback (pt.enter storage store) w).1) pt
        ((spec callback (pt.enter storage store) w).2.see (.left fun s => some (innermost pt.runs s)))
  | .init k, pt, w => Executes C (k w.made) pt (w.create pt.runs)
  | .exec resource callback k, pt, w =>
    C pt w resource ∧ Executes C callback (pt.execute w resource) w ∧
      Executes C (k (spec callback (pt.execute w resource) w).1) pt (spec callback (pt.execute w resource) w).2

end

/-- The resource has been created, and the stack is not full. -/
def Proper (pt : Point S V) (w : World S V) (resource : Nat) : Prop := resource < w.made ∧ pt.depth < 1024

/-- No run that changed a store in the resource's own execution is still going on. -/
def Calm (pt : Point S V) (_ : World S V) (resource : Nat) : Prop := .own resource ∉ pt.busy

/-! ## What a callback leaves as it was -/

variable {n m r : Nat}

section

variable {pt : Point S V} {w w' : World S V} {h h' : Heap S V}

def Old (n : Nat) : Resource Nat → Prop
  | .root => True
  | .own r => r < n

theorem Old.mono {r : Resource Nat} (hr : Old n r) (hnm : n ≤ m) : Old m r := by
  cases r with
  | root => trivial
  | own r => exact Nat.lt_of_lt_of_le hr hnm

theorem Old.ne {r : Resource Nat} (hr : Old n r) (hm : n ≤ m) : Resource.own m ≠ r := by
  rintro rfl
  exact absurd hr (Nat.not_lt.mpr hm)

structure Frame (w w' : World S V) (h h' : Heap S V) : Prop where
  stack : Kept h.stack h'.stack
  mapping : ∀ r, Old w.made r → h'.mapping r = h.mapping r
  made : w.made ≤ w'.made
  created : ∀ r < w.made, w'.created r = w.created r

theorem Frame.refl (w : World S V) (h : Heap S V) : Frame w w h h :=
  ⟨Kept.refl _, fun _ _ => rfl, le_rfl, fun _ _ => rfl⟩

theorem Frame.trans {w'' : World S V} {h'' : Heap S V} (f : Frame w w' h h') (g : Frame w' w'' h' h'') :
    Frame w w'' h h'' := by
  refine ⟨f.stack.trans g.stack, fun r hr => ?_, f.made.trans g.made, fun r hr => ?_⟩
  · rw [g.mapping r (hr.mono f.made), f.mapping r hr]
  · rw [g.created r (Nat.lt_of_lt_of_le hr f.made), f.created r hr]

theorem Frame.see (f : Frame w w' h h') (e : Seen S V) : Frame w (w'.see e) h (h'.see e) :=
  ⟨f.stack, f.mapping, f.made, f.created⟩

/-- `finally`: the old map is put back. -/
theorem Frame.restore {r : Resource Nat} {m : Option (S → Option V)} (f : Frame w w' (h.setMapping r m) h') :
    Frame w w' h (h'.setMapping r (h.mapping r)) := by
  refine { f with mapping := fun q hq => ?_ }
  show Function.update h'.mapping r (h.mapping r) q = h.mapping q
  by_cases hqr : q = r
  · rw [hqr, update_self]
  · rw [update_of_ne hqr, f.mapping q hq]
    exact update_of_ne hqr _ _

theorem Frame.init (hmade : h.made = w.made) (r : Resource Nat) (runs : List (S × Option V)) :
    Frame w (w.create runs) h (h.initHook r) := by
  refine ⟨Kept.refl _, fun q hq => ?_, Nat.le_succ _, fun q hq => update_of_ne (Nat.ne_of_lt hq) _ _⟩
  show Function.update h.mapping (.own h.made) _ q = h.mapping q
  rw [hmade, update_of_ne (hq.ne le_rfl).symm]

theorem Frame.execute (hlt : h.stack.idx < kExecutionResourceStackMaxLength)
    (f : Frame w w' { h with stack := asyncBefore h.stack r } h') :
    Frame w w' h { h' with stack := asyncAfter h'.stack } :=
  { f with stack := Kept.pair hlt f.stack }

end

/-! ## The maps carry the runs -/

section

variable [DecidableEq S] {pt pt' : Point S V} {w w' : World S V} {h h' : Heap S V}

@[simp] theorem innermost_cons (storage : S) (store : Option V) (runs : List (S × Option V)) :
    innermost ((storage, store) :: runs) = Function.update (innermost runs) storage store := by
  funext s
  rw [innermost, lookup_cons]
  by_cases hs : s = storage
  · rw [hs, update_self, beq_self_eq_true]
    rfl
  · rw [update_of_ne hs, beq_false_of_ne hs]
    rfl

structure At (pt : Point S V) (w : World S V) (h : Heap S V) : Prop where
  resource : getExecutionResource h.stack = some pt.current
  depth : h.stack.idx = pt.depth
  current : Old w.made pt.current
  busy : ∀ r ∈ pt.busy, Old w.made r
  made : h.made = w.made
  seen : h.seen = w.seen
  here : lookup (h.mapping pt.current) = innermost pt.runs
  created : ∀ r < w.made, .own r ∉ pt.busy → lookup (h.mapping (.own r)) = innermost (w.created r)

theorem At.start : At ({} : Point S V) {} {} := by
  refine ⟨rfl, rfl, trivial, ?_, rfl, rfl, ?_, ?_⟩
  · intro r hr
    cases hr
  · funext s
    rfl
  · intro r hr
    exact absurd hr (Nat.not_lt_zero r)

theorem At.getStore (hat : At pt w h) (storage : S) : h.getStore storage = some (innermost pt.runs storage) := by
  rw [Heap.getStore, hat.resource, Option.map_some, hat.here]

theorem At.see (hat : At pt w h) (e : Seen S V) : At pt (w.see e) (h.see e) :=
  { hat with seen := congrArg (· ++ [e]) hat.seen }

/-- Back at a point: only the resources created since then are to be looked at. -/
theorem At.back (hat : At pt w h) (f : Frame w w' h h') (hmade : h'.made = w'.made) (hseen : h'.seen = w'.seen)
    (hnew : ∀ r < w'.made, w.made ≤ r → lookup (h'.mapping (.own r)) = innermost (w'.created r)) : At pt w' h' := by
  refine ⟨?_, ?_, hat.current.mono f.made, fun r hr => (hat.busy r hr).mono f.made, hmade, hseen, ?_, ?_⟩
  · rw [f.stack.resource, hat.resource]
  · rw [f.stack.idx, hat.depth]
  · rw [f.mapping _ hat.current, hat.here]
  · intro r hr hfree
    rcases Nat.lt_or_ge r w.made with hold | hge
    · rw [f.mapping (.own r) hold, f.created r hold, hat.created r hold hfree]
    · exact hnew r hr hge

theorem At.not_busy (hat : At pt w h) (hr : w.made ≤ r) : Resource.own r ∉ pt.busy := by
  intro hmem
  exact (hat.busy _ hmem).ne hr rfl

theorem At.init (hat : At pt w h) : At pt (w.create pt.runs) (h.initHook pt.current) := by
  refine hat.back (Frame.init hat.made _ _) (congrArg (· + 1) hat.made) hat.seen fun r hr hge => ?_
  obtain rfl : r = w.made := Nat.le_antisymm (Nat.lt_succ_iff.mp hr) hge
  show lookup (Function.update h.mapping (.own h.made) _ (.own w.made)) = innermost (Function.update w.created w.made _ w.made)
  rw [hat.made, update_self, update_self, hat.here]

/-! ### Executions -/

theorem At.push_lt (hat : At pt w h) (hdepth : pt.depth < 1024) : h.stack.idx < kExecutionResourceStackMaxLength := by
  rw [hat.depth, kExecutionResourceStackMaxLength]
  omega

theorem At.execute (hat : At pt w h) (hproper : Proper pt w r) (hcalm : Calm pt w r) :
    At (pt.execute w r) w { h with stack := asyncBefore h.stack r } := by
  have hlt := hat.push_lt hproper.2
  refine ⟨?_, ?_, hproper.1, hat.busy, hat.made, hat.seen, hat.created r hproper.1 hcalm, hat.created⟩
  · exact asyncBefore_resource (by rw [hat.depth]; omega) hlt r
  · show (asyncBefore h.stack r).idx = ((pt.depth + 1 : Nat) : Int)
    rw [asyncBefore_of_lt hlt, hat.depth]
    rfl

theorem At.executed (hat : At pt w h) (hproper : Proper pt w r)
    (f : Frame w w' { h with stack := asyncBefore h.stack r } h') (hat' : At (pt.execute w r) w' h') :
    At pt w' { h' with stack := asyncAfter h'.stack } :=
  hat.back (f.execute (hat.push_lt hproper.2)) hat'.made hat'.seen fun q hq hge => hat'.created q hq (hat.not_busy hge)

/-! ### Runs -/

variable [DecidableEq V] {storage : S} {store : Option V}

theorem At.enter_same (hat : At pt w h) (hsame : store = innermost pt.runs storage) : At (pt.enter storage store) w h := by
  have hbusy : (pt.enter storage store).busy = pt.busy := if_pos hsame
  refine { hat with busy := by rw [hbusy]; exact hat.busy, here := ?_, created := by rw [hbusy]; exact hat.created }
  show lookup (h.mapping pt.current) = innermost ((storage, store) :: pt.runs)
  rw [innermost_cons, hsame, update_eq_self, hat.here]

theorem At.left_same (hat : At pt w h) (hsame : store = innermost pt.runs storage) (f : Frame w w' h h')
    (hat' : At (pt.enter storage store) w' h') : At pt w' h' := by
  have hbusy : (pt.enter storage store).busy = pt.busy := if_pos hsame
  refine hat.back f hat'.made hat'.seen fun r hr hge => hat'.created r hr ?_
  rw [hbusy]
  exact hat.not_busy hge

theorem At.enter (hat : At pt w h) (hnew : store ≠ innermost pt.runs storage) :
    At (pt.enter storage store) w
      (h.setMapping pt.current (some (Function.update (lookup (h.mapping pt.current)) storage store))) := by
  have hbusy : (pt.enter storage store).busy = pt.current :: pt.busy := if_neg hnew
  refine ⟨hat.resource, hat.depth, hat.current, ?_, hat.made, hat.seen, ?_, ?_⟩
  · rw [hbusy]
    intro r hr
    rcases mem_cons.mp hr with rfl | hr
    · exact hat.current
    · exact hat.busy r hr
  · show lookup (Function.update h.mapping pt.current _ pt.current) = innermost ((storage, store) :: pt.runs)
    rw [update_self, innermost_cons, ← hat.here]
    rfl
  · rw [hbusy]
    intro r hr hfree
    rw [mem_cons, not_or] at hfree
    show lookup (Function.update h.mapping pt.current _ (.own r)) = _
    rw [update_of_ne hfree.1, hat.created r hr hfree.2]

theorem At.left {m : Option (S → Option V)} (hat : At pt w h) (hnew : store ≠ innermost pt.runs storage)
    (f : Frame w w' (h.setMapping pt.current m) h') (hat' : At (pt.enter storage store) w' h') :
    At pt w' (h'.setMapping pt.current (h.mapping pt.current)) := by
  have hbusy : (pt.enter storage store).busy = pt.current :: pt.busy := if_neg hnew
  refine hat.back f.restore hat'.made hat'.seen fun r hr hge => ?_
  -- a resource of the callback's own: its map is not the one put back
  have hne : Resource.own r ≠ pt.current := hat.current.ne hge
  show lookup (Function.update h'.mapping pt.current _ (.own r)) = _
  rw [update_of_ne hne]
  refine hat'.created r hr ?_
  rw [hbusy, mem_cons, not_or]
  exact ⟨hne, hat.not_busy hge⟩

/-! ## Whole programs -/

/-- The induction: the heap stays the one of the point, and everything older than the
program's own resources is left as it was. -/
theorem eval_at (p : Prog S V A) (hat : At pt w h) (hproper : Executes Proper p pt w) (hcalm : Executes Calm p pt w) :
    (eval p h).1 = (spec p pt w).1 ∧ At pt (spec p pt w).2 (eval p h).2 ∧ Frame w (spec p pt w).2 h (eval p h).2 := by
  induction p generalizing pt w h with
  | ret a => exact ⟨rfl, hat, Frame.refl w h⟩
  | throw a => exact ⟨rfl, hat, Frame.refl w h⟩
  | getStore storage k ih =>
    simp only [eval, spec, hat.getStore]
    obtain ⟨ho, hat', f⟩ := ih _ (hat.see _) hproper hcalm
    exact ⟨ho, hat', ((Frame.refl w h).see _).trans f⟩
  | init k ih =>
    simp only [eval, spec, hat.resource, hat.made]
    obtain ⟨ho, hat', f⟩ := ih _ hat.init hproper hcalm
    exact ⟨ho, hat', (Frame.init hat.made _ _).trans f⟩
  | exec r callback k ihc ihk =>
    obtain ⟨hp, hpc, hpk⟩ := hproper
    obtain ⟨hc, hcc, hck⟩ := hcalm
    obtain ⟨ho, hat', f⟩ := ihc (hat.execute hp hc) hpc hcc
    obtain ⟨hok, hatk, fk⟩ := ihk _ (hat.executed hp f hat') hpk hck
    simp only [eval, spec, ho]
    exact ⟨hok, hatk, (f.execute (hat.push_lt hp.2)).trans fk⟩
  | run storage store callback k ihc ihk =>
    obtain ⟨hpc, hpk⟩ := hproper
    obtain ⟨hcc, hck⟩ := hcalm
    simp only [eval, spec, hat.resource]
    by_cases hsame : store = innermost pt.runs storage
    · rw [if_pos (by rw [hat.here]; exact hsame)]
      obtain ⟨ho, hat', f⟩ := ihc (hat.enter_same hsame) hpc hcc
      have hback := hat.left_same hsame f hat'
      have hview := funext hback.getStore
      obtain ⟨hok, hatk, fk⟩ := ihk _ (hback.see _) hpk hck
      rw [ho, hview]
      exact ⟨hok, hatk, (f.see _).trans fk⟩
    · rw [if_neg (by rw [hat.here]; exact hsame)]
      obtain ⟨ho, hat', f⟩ := ihc (hat.enter hsame) hpc hcc
      have hback := hat.left hsame f hat'
      have hview := funext hback.getStore
      obtain ⟨hok, hatk, fk⟩ := ihk _ (hback.see _) hpk hck
      rw [ho, hview]
      exact ⟨hok, hatk, (f.restore.see _).trans fk⟩

theorem eval_spec (p : Prog S V A) (hproper : Executes Proper p {} {}) (hcalm : Executes Calm p {} {}) :
    (eval p {}).1 = (spec p {} {}).1 ∧ (eval p {}).2.seen = (spec p {} {}).2.seen := by
  obtain ⟨ho, hat, -⟩ := eval_at p At.start hproper hcalm
  exact ⟨ho, hat.seen⟩

end

/-- A resource is created inside a run of storage 0; its execution, inside a run of both
storages, throws out of a run of storage 1. -/
def rejoin : Prog Nat Nat Nat :=
  .run 0 (some 1) (.init fun r => .ret r) fun _ =>
    .run 0 (some 2) (.run 1 (some 3)
      (.exec 0 (.run 1 (some 4) (.getStore 0 fun _ => .throw 7) fun _ => .getStore 1 fun _ => .throw 8) fun _ => .ret 0)
      fun _ => .ret 0) fun _ => .getStore 0 fun _ => .ret 0

theorem rejoin_spec :
    (Executes Proper rejoin {} {} ∧ Executes Calm rejoin {} {}) ∧ (eval rejoin {}).1 = (spec rejoin {} {}).1 ∧
      (eval rejoin {}).2.seen = (spec rejoin {} {}).2.seen := by
  have hproper : Executes Proper rejoin {} {} := by
    simp [rejoin, Executes, spec, Proper, World.create, World.see, Point.enter]
  have hcalm : Executes Calm rejoin {} {} := by
    simp [rejoin, Executes, Calm, Point.enter, innermost, List.lookup]
  exact ⟨⟨hproper, hcalm⟩, eval_spec rejoin hproper hcalm⟩

/-- A resource is created outside of every run, and executed again inside a run that is
called in its own execution; the store it finds there is handed out. -/
def reentrant : Prog Nat Nat (Option Nat) :=
  .init fun r => .exec r (.run 0 (some 1) (.exec r (.getStore 0 .ret) handOut) handOut) handOut
where
  handOut : Outcome (Option Nat) → Prog Nat Nat (Option Nat)
    | .returned store => .ret store
    | _ => .throw none

theorem reentrant_store :
    Executes Proper reentrant {} {} ∧ (eval reentrant {}).1 = .returned (some 1) ∧ (spec reentrant {} {}).1 = .returned none := by
  refine ⟨?_, rfl, rfl⟩
  simp [reentrant, reentrant.handOut, Executes, spec, Proper, World.create, Point.enter, Point.execute]

end Aworker.Async
