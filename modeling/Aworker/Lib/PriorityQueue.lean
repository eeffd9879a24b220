/-
  Aworker.Lib.PriorityQueue — what a priority queue promises, whatever keeps it.

  The smallest key is on top; which of several elements with that key is left open.

  - `takeDue`: elements popped as long as the key on top is not above a bound.
  - `takeDue_perm` / `takeDue_sorted` / `takeDue_due`: nothing is lost, and what is taken
    comes in the order of the keys, none above the bound.
-/

import Mathlib

namespace Aworker.Lib

open List

structure PriorityQueue (α : Type) {κ : Type} [LinearOrder κ] (key : α → κ) where
  Queue : Type
  /-- the elements, in no particular order -/
  elems : Queue → List α
  empty : Queue
  push : Queue → α → Queue
  top : Queue → Option α
  pop : Queue → Queue
  elems_empty : elems empty = []
  elems_push : ∀ q a, (elems (push q a)).Perm (elems q ++ [a])
  top_none : ∀ q, top q = none → elems q = []
  top_le : ∀ q a, top q = some a → ∀ b ∈ elems q, key a ≤ key b
  elems_pop : ∀ q a, top q = some a → (a :: elems (pop q)).Perm (elems q)

namespace PriorityQueue

variable {α κ : Type} [LinearOrder κ] {key : α → κ} (Q : PriorityQueue α key)

/-- At most `n` elements. -/
def takeUpTo (bound : κ) : Nat → Q.Queue → List α × Q.Queue
  | 0, q => ([], q)
  | n + 1, q =>
    match Q.top q with
    | none => ([], q)
    | some a =>
      if bound < key a then ([], q)
      else (a :: (takeUpTo bound n (Q.pop q)).1, (takeUpTo bound n (Q.pop q)).2)

def takeDue (bound : κ) (q : Q.Queue) : List α × Q.Queue := Q.takeUpTo bound (Q.elems q).length q

variable {Q} {bound : κ}

theorem takeUpTo_perm (n : Nat) (q : Q.Queue) : ((Q.takeUpTo bound n q).1 ++ Q.elems (Q.takeUpTo bound n q).2).Perm (Q.elems q) := by
  induction n generalizing q with
  | zero => exact .refl _
  | succ n ih =>
    simp only [takeUpTo]
    cases ht : Q.top q with
    | none => exact .refl _
    | some a =>
      simp only
      split
      · exact .refl _
      · exact ((ih (Q.pop q)).cons a).trans (Q.elems_pop q a ht)

theorem takeUpTo_due (n : Nat) (q : Q.Queue) : ∀ a ∈ (Q.takeUpTo bound n q).1, key a ≤ bound := by
  induction n generalizing q with
  | zero => intro a ha; cases ha
  | succ n ih =>
    simp only [takeUpTo]
    cases ht : Q.top q with
    | none => intro a ha; cases ha
    | some b =>
      simp only
      split
      · intro a ha; cases ha
      · next hb =>
        intro a ha
        rcases mem_cons.mp ha with rfl | ha
        · exact not_lt.mp hb
        · exact ih _ a ha

theorem takeUpTo_sorted (n : Nat) (q : Q.Queue) : (Q.takeUpTo bound n q).1.Pairwise fun a b => key a ≤ key b := by
  induction n generalizing q with
  | zero => exact .nil
  | succ n ih =>
    simp only [takeUpTo]
    cases ht : Q.top q with
    | none => exact .nil
    | some a =>
      simp only
      split
      · exact .nil
      · refine pairwise_cons.mpr ⟨fun b hb => Q.top_le q a ht b ?_, ih _⟩
        -- what is taken later was in the queue already
        have hpop := (takeUpTo_perm n (Q.pop q)).subset (mem_append_left _ hb)
        exact (Q.elems_pop q a ht).subset (mem_cons_of_mem _ hpop)

variable (Q) (bound)

theorem takeDue_perm (q : Q.Queue) : ((Q.takeDue bound q).1 ++ Q.elems (Q.takeDue bound q).2).Perm (Q.elems q) := takeUpTo_perm _ q

theorem takeDue_due (q : Q.Queue) : ∀ a ∈ (Q.takeDue bound q).1, key a ≤ bound := takeUpTo_due _ q

theorem takeDue_sorted (q : Q.Queue) : (Q.takeDue bound q).1.Pairwise fun a b => key a ≤ key b := takeUpTo_sorted _ q

end PriorityQueue

/-! ## A queue kept as a sorted list -/

section
variable {α κ : Type} [LinearOrder κ] (key : α → κ)

def sortedQueue : PriorityQueue α key where
  Queue := { l : List α // l.Pairwise (Order.Preimage key (· ≤ ·)) }
  elems q := q.1
  empty := ⟨[], .nil⟩
  push q a := ⟨q.1.orderedInsert (Order.Preimage key (· ≤ ·)) a, q.2.orderedInsert a q.1⟩
  top q := q.1.head?
  pop q := ⟨q.1.tail, q.2.tail⟩
  elems_empty := rfl
  elems_push q a := (perm_orderedInsert _ a q.1).trans (perm_append_singleton a q.1).symm
  top_none q h := head?_eq_none_iff.mp h
  top_le q a h b hb := by
    obtain ⟨l, hl⟩ := q
    cases l with
    | nil => cases h
    | cons c l =>
      cases h
      rcases mem_cons.mp hb with rfl | hb
      · exact le_refl _
      · exact (pairwise_cons.mp hl).1 b hb
  elems_pop q a h := by
    obtain ⟨l, hl⟩ := q
    cases l with
    | nil => cases h
    | cons c l => cases h; exact .refl _

end

end Aworker.Lib
