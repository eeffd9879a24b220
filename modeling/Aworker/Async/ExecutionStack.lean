/-
  Aworker.Async.ExecutionStack — the stack of execution resources (lib/task_queue.js).

  `asyncBefore` puts a resource on the stack and `asyncAfter` takes one off; the trampoline of
  native callbacks and the promise hooks call them in pairs. The stack is an array of 1024
  elements with an index: beyond that `asyncBefore` puts nothing on the stack, and `asyncAfter`
  takes an element off all the same. The index then stays behind, below zero in the end, and an
  element there is a property of the array that nobody has set.

  (1) `balanced_iff`: every pair of a well-nested sequence leaves the execution resource as it
      was, and all of them the index, exactly if the nesting is at most 1024 deep.
      `index_lost` is a nest of 1025.
-/

import Mathlib

namespace Aworker.Async

open List Function

variable {R : Type}

/-! ## The stack -/

def kExecutionResourceStackMaxLength : Int := 1024

/-- `executionResourceStackIdx` and `executionResourceStack`; `none` is `undefined`. -/
structure ExecutionStack (R : Type) where
  idx : Int := 0
  slots : Int → Option R := fun _ => none

/-- `kRootExecutionResource`, or a resource of the program. -/
inductive Resource (R : Type) where
  | root
  | own (r : R)
  deriving DecidableEq

def getExecutionResource (s : ExecutionStack R) : Option (Resource R) :=
  if s.idx = 0 then some .root else (s.slots (s.idx - 1)).map .own

def asyncBefore (s : ExecutionStack R) (resource : R) : ExecutionStack R :=
  if s.idx ≥ kExecutionResourceStackMaxLength then s
  else { idx := s.idx + 1, slots := Function.update s.slots s.idx (some resource) }

def asyncAfter (s : ExecutionStack R) : ExecutionStack R :=
  { idx := s.idx - 1, slots := Function.update s.slots (s.idx - 1) none }

/-! ## Sequences of calls -/

inductive Call (R : Type) where
  | before (resource : R)
  | after

def call (s : ExecutionStack R) : Call R → ExecutionStack R
  | .before resource => asyncBefore s resource
  | .after => asyncAfter s

def calls (s : ExecutionStack R) (cs : List (Call R)) : ExecutionStack R := cs.foldl call s

inductive WellNested : List (Call R) → Prop
  | nil : WellNested []
  | pair (r : R) {body rest : List (Call R)} : WellNested body → WellNested rest →
      WellNested (.before r :: (body ++ .after :: rest))

/-- The greatest nesting depth of a sequence that starts at `level`. -/
def depth (level : Int) : List (Call R) → Int
  | [] => level
  | .before _ :: cs => max level (depth (level + 1) cs)
  | .after :: cs => max level (depth (level - 1) cs)

/-- `asyncAfter` finds what `asyncBefore` put on the stack. -/
structure Balanced (cs : List (Call R)) : Prop where
  pairs : ∀ pre r body post, cs = pre ++ .before r :: (body ++ .after :: post) → WellNested body →
    getExecutionResource (calls {} (pre ++ .before r :: (body ++ [.after]))) = getExecutionResource (calls {} pre)
  index : (calls {} cs).idx = 0

variable {s : ExecutionStack R}

@[simp] theorem calls_nil (s : ExecutionStack R) : calls s [] = s := rfl

@[simp] theorem calls_cons (s : ExecutionStack R) (c : Call R) (cs : List (Call R)) : calls s (c :: cs) = calls (call s c) cs := rfl

theorem calls_append (s : ExecutionStack R) (a b : List (Call R)) : calls s (a ++ b) = calls (calls s a) b :=
  foldl_append

/-! ## Calls that put their resource on the stack -/

/-- No `asyncBefore` finds the stack full. -/
def Pushes (s : ExecutionStack R) : List (Call R) → Prop
  | [] => True
  | .before r :: cs => s.idx < kExecutionResourceStackMaxLength ∧ Pushes (asyncBefore s r) cs
  | .after :: cs => Pushes (asyncAfter s) cs

theorem pushes_append (a b : List (Call R)) : Pushes s (a ++ b) ↔ Pushes s a ∧ Pushes (calls s a) b := by
  induction a generalizing s with
  | nil => simp [Pushes]
  | cons c a ih =>
    cases c with
    | before r => simp only [cons_append, Pushes, ih, calls_cons, call, and_assoc]
    | after => simp only [cons_append, Pushes, ih, calls_cons, call]

theorem asyncBefore_of_lt (h : s.idx < kExecutionResourceStackMaxLength) (r : R) :
    asyncBefore s r = { idx := s.idx + 1, slots := Function.update s.slots s.idx (some r) } :=
  if_neg (by omega)

theorem asyncBefore_of_ge (h : ¬s.idx < kExecutionResourceStackMaxLength) (r : R) : asyncBefore s r = s :=
  if_pos (by omega)

theorem asyncBefore_resource (h0 : 0 ≤ s.idx) (h : s.idx < kExecutionResourceStackMaxLength) (r : R) :
    getExecutionResource (asyncBefore s r) = some (.own r) := by
  have hne : s.idx + 1 ≠ 0 := by omega
  rw [asyncBefore_of_lt h, getExecutionResource, if_neg hne]
  simp

variable {cs : List (Call R)}

/-- As long as nothing is left out, the index is the depth. -/
theorem pushes_iff_depth (h : s.idx ≤ kExecutionResourceStackMaxLength) :
    Pushes s cs ↔ depth s.idx cs ≤ kExecutionResourceStackMaxLength := by
  induction cs generalizing s with
  | nil => simpa [Pushes, depth] using h
  | cons c cs ih =>
    cases c with
    | before r =>
      simp only [Pushes, depth, max_le_iff, h, true_and]
      by_cases hlt : s.idx < kExecutionResourceStackMaxLength
      · have hstep := asyncBefore_of_lt hlt r
        have hle : (asyncBefore s r).idx ≤ kExecutionResourceStackMaxLength := by
          rw [hstep]
          exact hlt
        rw [ih hle, hstep]
        simp [hlt]
      · -- the depth is at least the level it starts at
        have hdepth : ∀ (level : Int) (cs : List (Call R)), level ≤ depth level cs := by
          intro level cs
          cases cs with
          | nil => exact le_rfl
          | cons c cs => cases c <;> exact le_max_left _ _
        have hge := hdepth (s.idx + 1) cs
        constructor
        · rintro ⟨hlt', -⟩
          exact absurd hlt' hlt
        · intro hd
          omega
    | after =>
      have hle : (asyncAfter s).idx ≤ kExecutionResourceStackMaxLength := by
        show s.idx - 1 ≤ _
        omega
      simp only [Pushes, depth, max_le_iff, h, true_and, ih hle]
      rfl

structure Kept (s s' : ExecutionStack R) : Prop where
  idx : s'.idx = s.idx
  slots : ∀ i < s.idx, s'.slots i = s.slots i

theorem Kept.refl (s : ExecutionStack R) : Kept s s := ⟨rfl, fun _ _ => rfl⟩

variable {s' : ExecutionStack R}

theorem Kept.trans {s'' : ExecutionStack R} (h : Kept s s') (h' : Kept s' s'') : Kept s s'' := by
  refine ⟨h'.idx.trans h.idx, fun i hi => ?_⟩
  rw [h'.slots i (by rw [h.idx]; exact hi), h.slots i hi]

theorem Kept.resource (h : Kept s s') : getExecutionResource s' = getExecutionResource s := by
  unfold getExecutionResource
  rw [h.idx, h.slots (s.idx - 1) (by omega)]

theorem Kept.pair {r : R} (hlt : s.idx < kExecutionResourceStackMaxLength) (h : Kept (asyncBefore s r) s') :
    Kept s (asyncAfter s') := by
  obtain ⟨hidx, hslots⟩ := h
  rw [asyncBefore_of_lt hlt] at hidx hslots
  have hidx : s'.idx - 1 = s.idx := by
    rw [hidx]
    exact add_sub_cancel_right _ _
  refine ⟨hidx, fun i hi => ?_⟩
  show Function.update s'.slots (s'.idx - 1) none i = s.slots i
  rw [hidx, update_of_ne (Int.ne_of_lt hi), hslots i (by show i < s.idx + 1; omega)]
  exact update_of_ne (Int.ne_of_lt hi) _ _

theorem pushes_kept (hcs : WellNested cs) (h : Pushes s cs) : Kept s (calls s cs) := by
  induction hcs generalizing s with
  | nil => exact Kept.refl s
  | pair r _ _ ihbody ihrest =>
    obtain ⟨hlt, h⟩ := h
    obtain ⟨hbody, hrest⟩ := (pushes_append _ _).mp h
    rw [calls_cons, calls_append, calls_cons]
    exact (Kept.pair hlt (ihbody hbody)).trans (ihrest hrest)

/-! ## Calls that do not -/

/-- What the index would be if nothing were left out. -/
def level (start : Int) : List (Call R) → Int
  | [] => start
  | .before _ :: cs => level (start + 1) cs
  | .after :: cs => level (start - 1) cs

theorem level_append (start : Int) (a b : List (Call R)) : level start (a ++ b) = level (level start a) b := by
  induction a generalizing start with
  | nil => rfl
  | cons c a ih => cases c <;> exact ih _

theorem level_wellNested (hcs : WellNested cs) (start : Int) : level start cs = start := by
  induction hcs generalizing start with
  | nil => rfl
  | pair r _ _ ihbody ihrest =>
    rw [level, level_append, ihbody, level, ihrest]
    exact add_sub_cancel_right _ _

theorem level_add (start k : Int) (cs : List (Call R)) : level (start + k) cs = level start cs + k := by
  induction cs generalizing start with
  | nil => rfl
  | cons c cs ih =>
    cases c with
    | before r => rw [level, level, ← ih, add_right_comm]
    | after => rw [level, level, ← ih, add_sub_right_comm]

theorem calls_idx (cs : List (Call R)) (s : ExecutionStack R) :
    (calls s cs).idx ≤ level s.idx cs ∧ ((calls s cs).idx = level s.idx cs → Pushes s cs) := by
  induction cs generalizing s with
  | nil => exact ⟨le_rfl, fun _ => trivial⟩
  | cons c cs ih =>
    cases c with
    | after => exact ih (asyncAfter s)
    | before r =>
      have hih := ih (asyncBefore s r)
      rw [calls_cons, level]
      simp only [call, Pushes]
      by_cases hlt : s.idx < kExecutionResourceStackMaxLength
      · have hidx : (asyncBefore s r).idx = s.idx + 1 := by rw [asyncBefore_of_lt hlt]
        rw [hidx] at hih
        exact ⟨hih.1, fun h => ⟨hlt, hih.2 h⟩⟩
      · have hidx : (asyncBefore s r).idx = s.idx := by rw [asyncBefore_of_ge hlt]
        rw [hidx] at hih
        rw [level_add]
        have hle := hih.1
        exact ⟨by omega, fun h => absurd h (by omega)⟩

theorem balanced_iff {cs : List (Call R)} (hcs : WellNested cs) : Balanced cs ↔ depth 0 cs ≤ kExecutionResourceStackMaxLength := by
  have hstart : ({} : ExecutionStack R).idx ≤ kExecutionResourceStackMaxLength := by simp [kExecutionResourceStackMaxLength]
  have hdepth : Pushes {} cs ↔ depth 0 cs ≤ kExecutionResourceStackMaxLength := pushes_iff_depth hstart
  rw [← hdepth]
  constructor
  · intro h
    refine (calls_idx cs {}).2 ?_
    rw [h.index, level_wellNested hcs]
  · intro h
    refine ⟨fun pre r body post hcs hbody => ?_, (pushes_kept hcs h).idx⟩
    rw [hcs, pushes_append, Pushes, pushes_append] at h
    obtain ⟨-, hlt, hpush, -⟩ := h
    rw [calls_append, calls_cons, calls_append]
    exact (Kept.pair hlt (pushes_kept hbody hpush)).resource

/-- Two pairs inside one another, then one more. -/
theorem balanced_nested : Balanced [.before 1, .before 2, .after, .before (2 : Nat), .after, .after, .before 3, .after] := by
  refine (balanced_iff ?_).mpr (by decide)
  exact .pair 1 (.pair 2 .nil (.pair 2 .nil .nil)) (.pair 3 .nil .nil)

/-! ## A nest that is too deep -/

def nest (n : Nat) : List (Call Nat) := (List.range n).map .before

theorem nest_wellNested (n : Nat) : WellNested (nest n ++ List.replicate n .after) := by
  have hwrap : ∀ l : List Nat, WellNested (l.map Call.before ++ List.replicate l.length .after) := by
    intro l
    induction l with
    | nil => exact .nil
    | cons r l ih =>
      have h := WellNested.pair r ih .nil
      rwa [append_assoc, ← replicate_succ'] at h
  have h := hwrap (List.range n)
  rwa [length_range] at h

theorem calls_nest_succ (n : Nat) : calls {} (nest (n + 1)) = asyncBefore (calls {} (nest n)) n := by
  rw [nest, range_succ, map_append, calls_append]
  rfl

variable {n : Nat}

theorem nest_calls (hn : n ≤ kExecutionResourceStackMaxLength) :
    (calls {} (nest n)).idx = n ∧ ∀ i < n, (calls {} (nest n)).slots i = some i := by
  induction n with
  | zero => exact ⟨rfl, fun i hi => absurd hi (Nat.not_lt_zero i)⟩
  | succ n ih =>
    obtain ⟨hidx, hslots⟩ := ih (by omega)
    have hlt : (calls {} (nest n)).idx < kExecutionResourceStackMaxLength := by
      rw [hidx]
      omega
    rw [calls_nest_succ, asyncBefore_of_lt hlt]
    refine ⟨by simp [hidx], fun i hi => ?_⟩
    show Function.update (calls {} (nest n)).slots (calls {} (nest n)).idx (some n) i = some i
    rw [hidx]
    rcases Nat.lt_succ_iff_lt_or_eq.mp hi with hi | rfl
    · rw [update_of_ne (by omega), hslots i hi]
    · exact update_self _ _ _

theorem nest_resource (hn : n + 1 ≤ kExecutionResourceStackMaxLength) :
    getExecutionResource (calls {} (nest (n + 1))) = some (.own n) := by
  obtain ⟨hidx, hslots⟩ := nest_calls (n := n + 1) (by exact_mod_cast hn)
  rw [getExecutionResource, if_neg (by rw [hidx]; omega), hidx]
  have hpred : ((n + 1 : Nat) : Int) - 1 = n := by omega
  rw [hpred, hslots n (Nat.lt_succ_self n), Option.map_some]

theorem afters_idx (n : Nat) (s : ExecutionStack R) : (calls s (List.replicate n .after)).idx = s.idx - n := by
  induction n generalizing s with
  | zero => simp
  | succ n ih =>
    rw [replicate_succ, calls_cons, ih]
    show s.idx - 1 - n = _
    push_cast
    omega

/-- A pair on a full stack takes off the element that was there before, and nothing puts it back. -/
theorem full_pair (hn : n + 2 = kExecutionResourceStackMaxLength) :
    getExecutionResource (calls {} (nest (n + 2) ++ [.before (n + 2), .after])) = some (.own n) ∧
      (calls {} (nest (n + 3) ++ List.replicate (n + 3) .after)).idx = -1 := by
  obtain ⟨hidx, hslots⟩ := nest_calls (n := n + 2) (by push_cast; omega)
  have hidx : (calls {} (nest (n + 2))).idx = n + 2 := by
    rw [hidx]
    push_cast
    rfl
  have hfull : ¬(calls {} (nest (n + 2))).idx < kExecutionResourceStackMaxLength := by
    rw [hidx]
    omega
  constructor
  · rw [calls_append, calls_cons, calls_cons, calls_nil, call, call, asyncBefore_of_ge hfull, asyncAfter,
      getExecutionResource, hidx]
    have hpred : (n : Int) + 2 - 1 - 1 = n := by omega
    have hne : (n : Int) ≠ n + 2 - 1 := by omega
    refine (if_neg (show ¬(n : Int) + 2 - 1 = 0 by omega)).trans (Option.map_eq_some_iff.mpr ⟨n, ?_, rfl⟩)
    rw [hpred]
    exact (update_of_ne hne _ _).trans (hslots n (by omega))
  · rw [calls_append, calls_nest_succ, asyncBefore_of_ge hfull, afters_idx, hidx]
    push_cast
    omega

/-- The innermost of 1025 pairs, and all of them. -/
theorem index_lost :
    WellNested (nest 1025 ++ List.replicate 1025 .after) ∧ getExecutionResource (calls {} (nest 1024)) = some (.own 1023) ∧
      getExecutionResource (calls {} (nest 1024 ++ [.before 1024, .after])) = some (.own 1022) ∧
      (calls {} (nest 1025 ++ List.replicate 1025 .after)).idx = -1 := by
  have hfull : ((1022 : Nat) : Int) + 2 = kExecutionResourceStackMaxLength := by
    rw [kExecutionResourceStackMaxLength]
    norm_num
  have htop : ((1023 : Nat) : Int) + 1 ≤ kExecutionResourceStackMaxLength := by
    rw [kExecutionResourceStackMaxLength]
    norm_num
  exact ⟨nest_wellNested 1025, nest_resource htop, full_pair hfull⟩

end Aworker.Async
