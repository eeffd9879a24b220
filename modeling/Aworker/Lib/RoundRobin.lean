/-
  Aworker.Lib.RoundRobin — turns taken from the front of a queue.

  Whoever has had its turn may join the queue again, at the end. `ahead queue t` is who
  comes before `t`; while `t` itself is having its turn, everyone.

  - `Owed`: since the last turn of `t`, whoever was waiting at that turn has had one turn or
    is ahead of `t`, never both. It survives every way the queue changes.
  - `roundRobin_turn`: so between two turns of `t` each of them has exactly one.
  - `ahead_turn`: every turn brings `t` one place nearer.
-/

import Mathlib

namespace Aworker.Lib

open List

structure Turn (α : Type) where
  task : α
  /-- who was waiting then -/
  others : List α

variable {α : Type} [DecidableEq α]

def ahead (queue : List α) (t : α) : List α := queue.takeWhile (· ≠ t)

def RoundRobin (turns : List (Turn α)) : Prop :=
  ∀ a x b y c, turns = a ++ x :: (b ++ y :: c) → x.task = y.task → x.task ∉ b.map Turn.task →
    ∀ u ∈ x.others, (b.map Turn.task).count u = 1

def Owed (turns : List (Turn α)) (queue : List α) (t : α) : Prop :=
  ∀ a x b, turns = a ++ x :: b → x.task = t → t ∉ b.map Turn.task →
    ∀ u ∈ x.others, (b.map Turn.task).count u + (ahead queue t).count u = 1

variable {turns : List (Turn α)} {queue : List α} {t h : α}

theorem ahead_self (t : α) (queue : List α) : ahead (t :: queue) t = [] := by simp [ahead]

theorem ahead_turn (hne : h ≠ t) (queue : List α) : ahead (h :: queue) t = h :: ahead queue t := by simp [ahead, hne]

theorem ahead_of_notMem (ht : t ∉ queue) : ahead queue t = queue := by
  refine takeWhile_eq_self_iff.mpr fun x hx => ?_
  simp only [decide_eq_true_eq]
  rintro rfl
  exact ht hx

theorem ahead_append (ht : t ∈ queue) (more : List α) : ahead (queue ++ more) t = ahead queue t := by
  induction queue with
  | nil => cases ht
  | cons x queue ih =>
    by_cases hx : x = t
    · rw [hx, cons_append, ahead_self, ahead_self]
    · rcases mem_cons.mp ht with rfl | ht
      · exact absurd rfl hx
      · rw [cons_append, ahead_turn hx, ahead_turn hx, ih ht]

theorem owed_new (queue : List α) (hnew : ∀ x ∈ turns, x.task ≠ t) : Owed turns queue t := by
  intro a x b he hx
  exact absurd hx (hnew x (by simp [he]))

/-- Someone joins behind `t`. -/
theorem owed_push (ho : Owed turns queue t) (ht : t ∈ queue) (more : List α) : Owed turns (queue ++ more) t := by
  intro a x b he hx hb u hu
  rw [ahead_append ht]
  exact ho a x b he hx hb u hu

/-- Someone new joins while `t` has its turn. -/
theorem owed_push_new (ho : Owed turns queue t) (ht : t ∉ queue) {n : α} (hn : n ≠ t) (hnew : ∀ x ∈ turns, n ∉ x.others) :
    Owed turns (queue ++ [n]) t := by
  intro a x b he hx hb u hu
  have hold := ho a x b he hx hb u hu
  have hne : n ≠ u := by
    rintro rfl
    exact hnew x (by simp [he]) hu
  have ht' : t ∉ queue ++ [n] := by simp [ht, hn.symm]
  rw [ahead_of_notMem ht] at hold
  rw [ahead_of_notMem ht', count_append, count_singleton]
  simpa [hne] using hold

/-- `t` joins again after its turn. -/
theorem owed_requeue (ho : Owed turns queue t) (ht : t ∉ queue) : Owed turns (queue ++ [t]) t := by
  intro a x b he hx hb u hu
  have hold := ho a x b he hx hb u hu
  have hahead : ahead (queue ++ [t]) t = queue := by
    rw [ahead, takeWhile_append_of_pos]
    · simp
    · intro y hy
      simp only [decide_eq_true_eq]
      exact fun he => ht (he ▸ hy)
  rw [ahead_of_notMem ht] at hold
  rw [hahead]
  exact hold

/-- The last turn of a longer list is the new one, or one of before. -/
theorem snoc_cases {β : Type} {l a b : List β} {x y : β} (he : l ++ [y] = a ++ x :: b) :
    (b = [] ∧ x = y ∧ l = a) ∨ ∃ b', b = b' ++ [y] ∧ l = a ++ x :: b' := by
  rcases eq_nil_or_concat b with rfl | ⟨b', z, rfl⟩
  · obtain ⟨hl, hy⟩ := append_inj' he rfl
    exact Or.inl ⟨rfl, (List.cons.inj hy).1.symm, hl⟩
  · rw [concat_eq_append, ← cons_append, ← append_assoc] at he
    obtain ⟨hl, hy⟩ := append_inj' he rfl
    refine Or.inr ⟨b', ?_, hl⟩
    rw [concat_eq_append, (List.cons.inj hy).1]

theorem owed_turn (ho : Owed turns (h :: queue) t) (hne : h ≠ t) : Owed (turns ++ [{ task := h, others := queue }]) queue t := by
  intro a x b he hx hb u hu
  rcases snoc_cases he with ⟨-, rfl, -⟩ | ⟨b', rfl, hl⟩
  · exact absurd hx hne
  · have hold := ho a x b' hl hx (by simp_all) u hu
    rw [ahead_turn hne, count_cons] at hold
    simp only [map_append, map_cons, map_nil, count_append, count_singleton]
    omega

/-- `t` has its own turn. -/
theorem owed_turn_self (hq : (h :: queue).Nodup) : Owed (turns ++ [{ task := h, others := queue }]) queue h := by
  obtain ⟨hh, hq⟩ := nodup_cons.mp hq
  intro a x b he hx hb u hu
  rcases snoc_cases he with ⟨rfl, rfl, -⟩ | ⟨b', rfl, -⟩
  · rw [ahead_of_notMem hh, count_eq_one_of_mem hq hu]
    rfl
  · simp at hb

theorem roundRobin_nil : RoundRobin ([] : List (Turn α)) := by
  intro a x b y c he
  simp at he

theorem roundRobin_turn (hr : RoundRobin turns) (ho : Owed turns (h :: queue) h) :
    RoundRobin (turns ++ [{ task := h, others := queue }]) := by
  intro a x b y c he hxy hb u hu
  have he' : turns ++ [{ task := h, others := queue }] = (a ++ x :: b) ++ y :: c := by simp [he]
  rcases snoc_cases he' with ⟨-, rfl, hl⟩ | ⟨c', rfl, hl⟩
  · have hxh : x.task = h := hxy
    rw [hxh] at hb
    have := ho a x b hl hxh hb u hu
    rwa [ahead_self, count_nil, Nat.add_zero] at this
  · exact hr a x b y c' (by simp [hl]) hxy hb u hu

end Aworker.Lib
