/-
  Aworker.Lib.SearchTree — insertion into a search tree by a comparator that may be anything.

  A search for the place of `x` goes left where `lt x` holds and right where it does not, and
  `x` is put there unless the element before it is not `lt x`. The shape of the tree decides
  which elements `x` is compared with. If `lt x` does not change from true to false along the
  tree, the shape does not matter.

  - `place_eq`: the place is where `lt x` becomes true.
  - `insertUnique_eq`: and `x` is put there if all before it are `lt x`.
-/

import Mathlib

namespace Aworker.Lib

open List

variable {α : Type}

def inorder : BinaryTree α → List α
  | .nil => []
  | .node a l r => inorder l ++ a :: inorder r

/-- The elements before and after the place where the search ends. -/
def place (lt : α → α → Bool) (x : α) : BinaryTree α → List α × List α
  | .nil => ([], [])
  | .node a l r =>
    if lt x a then ((place lt x l).1, (place lt x l).2 ++ a :: inorder r)
    else (inorder l ++ a :: (place lt x r).1, (place lt x r).2)

/-- The elements of the tree in order, after the insertion. -/
def insertUnique (lt : α → α → Bool) (x : α) (tree : BinaryTree α) : List α :=
  match (place lt x tree).1.getLast? with
  | some y => if lt y x then (place lt x tree).1 ++ x :: (place lt x tree).2 else inorder tree
  | none => x :: (place lt x tree).2

variable {lt : α → α → Bool} {x : α} {tree : BinaryTree α}

theorem place_append (lt : α → α → Bool) (x : α) (tree : BinaryTree α) :
    (place lt x tree).1 ++ (place lt x tree).2 = inorder tree := by
  induction tree with
  | nil => rfl
  | node a l r ihl ihr =>
    simp only [place, inorder]
    split
    · rw [← append_assoc, ihl]
    · rw [append_assoc, cons_append, ihr]

variable {a b : List α}

theorem place_eq (h : inorder tree = a ++ b) (ha : ∀ y ∈ a, lt x y = false) (hb : ∀ y ∈ b, lt x y = true) :
    place lt x tree = (a, b) := by
  induction tree generalizing a b with
  | nil =>
    obtain ⟨rfl, rfl⟩ := append_eq_nil_iff.mp h.symm
    rfl
  | node y l r ihl ihr =>
    rw [inorder] at h
    rcases append_eq_append_iff.mp h with ⟨a', rfl, htail⟩ | ⟨b', hl, rfl⟩
    · cases a' with
      | nil =>
        obtain rfl : y :: inorder r = b := htail
        rw [place, if_pos (hb y mem_cons_self), ihl (append_nil _).symm (by simpa using ha) nofun]
        simp
      | cons z a' =>
        obtain ⟨rfl, hr⟩ := List.cons.inj htail
        have hy : lt x y = false := ha y (by simp)
        rw [place, hy, if_neg Bool.false_ne_true, ihr hr (fun z hz => ha z (by simp [hz])) hb]
    · have hy : lt x y = true := hb y (by simp)
      rw [place, if_pos hy, ihl hl ha fun z hz => hb z (by simp [hz])]

theorem insertUnique_eq (h : inorder tree = a ++ b) (ha : ∀ y ∈ a, lt x y = false) (hb : ∀ y ∈ b, lt x y = true)
    (hlt : ∀ y ∈ a, lt y x = true) : insertUnique lt x tree = a ++ x :: b := by
  rw [insertUnique, place_eq h ha hb]
  split
  · next y hy => rw [if_pos (hlt y (mem_of_getLast? hy))]
  · next hnone =>
    obtain rfl : a = [] := getLast?_eq_none_iff.mp hnone
    rfl

theorem insertUnique_ne_nil (lt : α → α → Bool) (x : α) (tree : BinaryTree α) : insertUnique lt x tree ≠ [] := by
  unfold insertUnique
  split
  · next y hy =>
    split
    · simp
    · rw [← place_append lt x]
      intro hnil
      have := mem_of_getLast? hy
      rw [(append_eq_nil_iff.mp hnil).1] at this
      cases this
  · exact cons_ne_nil _ _

end Aworker.Lib
