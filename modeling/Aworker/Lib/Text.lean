/-
  Aworker.Lib.Text — trimming a text and splitting it into trimmed fields.

  `blank` says which characters trimming takes away.

  - `fields_trim`: trimming a text does not change its trimmed fields, as long as the
    separator is not blank.
  - `matchNext_suffix` / `matchNext_lt`: a matcher that starts over at every mismatch finds
    nothing that is not there.
  Also `append_sep_inj`, `infix_append_cons`.
-/

import Mathlib

namespace Aworker.Lib

open List

variable {α : Type} [DecidableEq α] (blank : α → Bool) (sep : α)

def trim (l : List α) : List α := (l.dropWhile blank).rdropWhile blank

def fields (l : List α) : List (List α) := (l.splitOn sep).map (trim blank)

variable {blank sep}

variable {l : List α} {c : α}

omit [DecidableEq α] in
theorem mem_of_mem_trim (h : c ∈ trim blank l) : c ∈ l :=
  (dropWhile_suffix blank).subset (( rdropWhile_prefix blank _).subset h)

omit [DecidableEq α] in
theorem trim_cons (hc : blank c = true) (l : List α) : trim blank (c :: l) = trim blank l := by
  simp [trim, hc]

omit [DecidableEq α] in
theorem trim_concat (hc : blank c = true) (l : List α) : trim blank (l ++ [c]) = trim blank l := by
  induction l with
  | nil => simp [trim, hc]
  | cons x l ih =>
    by_cases hx : blank x = true
    · rw [cons_append, trim_cons hx, trim_cons hx, ih]
    · rw [trim, trim, cons_append, dropWhile_cons_of_neg hx, dropWhile_cons_of_neg hx, ← cons_append,
        rdropWhile_concat_pos _ _ _ hc]

theorem fields_cons (hc : blank c = true) (hs : blank sep = false) (l : List α) :
    fields blank sep (c :: l) = fields blank sep l := by
  have hne : c ≠ sep := by rintro rfl; rw [hc] at hs; cases hs
  obtain ⟨f, fs, hf⟩ := exists_cons_of_ne_nil (splitOnP_ne_nil (· == sep) l)
  simp only [fields, List.splitOn, splitOnP_cons_eq_if_modifyHead, beq_iff_eq, hne, if_false, hf]
  simp [trim_cons hc]

theorem splitOn_concat (hne : c ≠ sep) (l : List α) :
    ∃ init last, l.splitOn sep = init ++ [last] ∧ (l ++ [c]).splitOn sep = init ++ [last ++ [c]] := by
  induction l with
  | nil => exact ⟨[], [], by simp, by simp [List.splitOn, splitOnP_cons_eq_if_modifyHead, hne]⟩
  | cons x l ih =>
    obtain ⟨init, last, h1, h2⟩ := ih
    simp only [List.splitOn] at h1 h2
    by_cases hx : x = sep
    · refine ⟨[] :: init, last, ?_, ?_⟩ <;> simp [List.splitOn, splitOnP_cons_eq_if_modifyHead, hx, h1, h2]
    · cases init with
      | nil =>
        refine ⟨[], x :: last, ?_, ?_⟩ <;> simp [List.splitOn, splitOnP_cons_eq_if_modifyHead, hx, h1, h2]
      | cons f init =>
        refine ⟨(x :: f) :: init, last, ?_, ?_⟩ <;> simp [List.splitOn, splitOnP_cons_eq_if_modifyHead, hx, h1, h2]

theorem fields_concat (hc : blank c = true) (hs : blank sep = false) (l : List α) :
    fields blank sep (l ++ [c]) = fields blank sep l := by
  have hne : c ≠ sep := by rintro rfl; rw [hc] at hs; cases hs
  obtain ⟨init, last, h1, h2⟩ := splitOn_concat hne l
  simp [fields, h1, h2, trim_concat hc]

theorem fields_trim (hs : blank sep = false) (l : List α) : fields blank sep (trim blank l) = fields blank sep l := by
  have hdrop : fields blank sep (l.dropWhile blank) = fields blank sep l := by
    induction l with
    | nil => rfl
    | cons c l ih =>
      by_cases hc : blank c = true
      · rw [dropWhile_cons_of_pos hc, ih, fields_cons hc hs]
      · rw [dropWhile_cons_of_neg hc]
  have hrdrop : ∀ m : List α, fields blank sep (m.rdropWhile blank) = fields blank sep m := by
    intro m
    induction m using List.reverseRecOn with
    | nil => simp
    | append_singleton m c ih =>
      by_cases hc : blank c = true
      · rw [rdropWhile_concat_pos _ _ _ hc, ih, fields_concat hc hs]
      · rw [rdropWhile_concat_neg _ _ _ hc]
  rw [trim, hrdrop, hdrop]

variable {a b : List α}

omit [DecidableEq α] in
/-- What stands before the first separator, and what after it. -/
theorem append_sep_inj {x y : List α} (ha : sep ∉ a) (hb : sep ∉ b) (h : a ++ sep :: x = b ++ sep :: y) : a = b ∧ x = y := by
  induction a generalizing b with
  | nil =>
    cases b with
    | nil => exact ⟨rfl, (List.cons.inj h).2⟩
    | cons c b => exact absurd ((List.cons.inj h).1 ▸ mem_cons_self) hb
  | cons c a ih =>
    cases b with
    | nil => exact absurd ((List.cons.inj h).1 ▸ mem_cons_self) ha
    | cons d b =>
      obtain ⟨rfl, hrest⟩ := List.cons.inj h
      obtain ⟨rfl, hx⟩ := ih (fun hm => ha (mem_cons_of_mem _ hm)) (fun hm => hb (mem_cons_of_mem _ hm)) hrest
      exact ⟨rfl, hx⟩

omit [DecidableEq α] in
theorem trim_eq_self (hfirst : ∀ c, l.head? = some c → blank c = false) (hlast : ∀ c, l.getLast? = some c → blank c = false) :
    trim blank l = l := by
  have hdrop : l.dropWhile blank = l := by
    cases l with
    | nil => rfl
    | cons c l => rw [dropWhile_cons_of_neg (by simp [hfirst c rfl])]
  rw [trim, hdrop, rdropWhile_eq_self_iff]
  intro hne
  simp [hlast _ (getLast?_eq_getLast_of_ne_nil hne)]

omit [DecidableEq α] in
theorem trim_trim (l : List α) : trim blank (trim blank l) = trim blank l := by
  refine trim_eq_self (fun c hc => ?_) fun c hc => ?_
  · -- the first character is the first that is left at the front
    have hpre : trim blank l <+: l.dropWhile blank := rdropWhile_prefix blank _
    have hhead : (l.dropWhile blank).head? = some c := by
      obtain ⟨rest, hrest⟩ := hpre
      rw [← hrest, head?_append, hc, Option.some_or]
    have hne : l.dropWhile blank ≠ [] := by
      intro hnil
      rw [hnil] at hhead
      cases hhead
    have hnot := head_dropWhile_not blank hne
    rw [head?_eq_some_head hne] at hhead
    rw [← Option.some.inj hhead]
    simpa using hnot
  · have hne : trim blank l ≠ [] := by
      intro hnil
      rw [hnil] at hc
      cases hc
    have hnot := rdropWhile_last_not blank _ hne
    rw [getLast?_eq_some_getLast hne] at hc
    rw [← Option.some.inj hc]
    exact Bool.eq_false_of_not_eq_true hnot

theorem splitOn_append (h : sep ∉ a) (l : List α) : (a ++ sep :: l).splitOn sep = a :: l.splitOn sep := by
  refine splitOnP_append_cons_of_forall_mem (p := (· == sep)) (fun x hx => ?_) sep (beq_self_eq_true sep) l
  rw [beq_eq_false_iff_ne]
  rintro rfl
  exact h hx

theorem splitOn_eq_singleton (h : sep ∉ a) : a.splitOn sep = [a] := by
  refine splitOnP_eq_singleton fun x hx => ?_
  rw [beq_eq_false_iff_ne]
  rintro rfl
  exact h hx

theorem mem_splitOn {f : List α} (h : f ∈ l.splitOn sep) : sep ∉ f ∧ ∀ c ∈ f, c ∈ l := by
  induction l generalizing f with
  | nil =>
    rw [splitOn_eq_singleton not_mem_nil, mem_singleton] at h
    subst h
    exact ⟨not_mem_nil, fun c hc => hc⟩
  | cons x l ih =>
    by_cases hx : x = sep
    · have hsplit : ([] ++ sep :: l).splitOn sep = [] :: l.splitOn sep := splitOn_append not_mem_nil l
      rw [hx]
      rw [hx, ← nil_append (sep :: l), hsplit] at h
      rcases mem_cons.mp h with rfl | hf
      · exact ⟨not_mem_nil, fun c hc => absurd hc not_mem_nil⟩
      · exact ⟨(ih hf).1, fun c hc => mem_cons_of_mem _ ((ih hf).2 c hc)⟩
    · simp only [List.splitOn] at h ih
      obtain ⟨g, gs, hg⟩ := exists_cons_of_ne_nil (splitOnP_ne_nil (· == sep) l)
      rw [splitOnP_cons_eq_if_modifyHead, beq_eq_false_iff_ne.mpr hx, if_neg Bool.false_ne_true, hg, modifyHead_cons] at h
      rcases mem_cons.mp h with rfl | hf
      · obtain ⟨hsep, hall⟩ := ih (hg ▸ mem_cons_self)
        refine ⟨fun hm => ?_, fun c hc => ?_⟩
        · rcases mem_cons.mp hm with rfl | hm
          · exact hx rfl
          · exact hsep hm
        · rcases mem_cons.mp hc with rfl | hc
          · exact mem_cons_self
          · exact mem_cons_of_mem _ (hall c hc)
      · obtain ⟨hsep, hall⟩ := ih (hg ▸ mem_cons_of_mem _ hf)
        exact ⟨hsep, fun c hc => mem_cons_of_mem _ (hall c hc)⟩

omit [DecidableEq α] in
theorem infix_append_cons {pat : List α} {x : α} (hx : x ∉ pat) (h : pat <:+: a ++ x :: b) : pat <:+: a ∨ pat <:+: b := by
  obtain ⟨l, r, hlr⟩ := h
  rw [append_assoc] at hlr
  rcases append_eq_append_iff.mp hlr with ⟨mid, rfl, hrest⟩ | ⟨mid, rfl, hrest⟩
  · rcases append_eq_append_iff.mp hrest with ⟨mid', rfl, -⟩ | ⟨mid', hpat, hrest⟩
    · exact Or.inl ⟨l, mid', by rw [append_assoc]⟩
    · cases mid' with
      | nil => exact Or.inl ⟨l, [], by rw [hpat, append_nil, append_nil]⟩
      | cons y mid' =>
        obtain ⟨rfl, -⟩ := List.cons.inj hrest
        exact absurd (hpat ▸ mem_append_right _ mem_cons_self) hx
  · cases mid with
    | nil =>
      cases pat with
      | nil => exact Or.inl ( nil_infix)
      | cons y pat =>
        obtain ⟨rfl, -⟩ := List.cons.inj hrest
        exact absurd mem_cons_self hx
    | cons y mid =>
      obtain ⟨rfl, hb⟩ := List.cons.inj hrest
      exact Or.inr ⟨mid, r, by rw [append_assoc]; exact hb.symm⟩

/-! ## Searching without looking back -/

/-- How much of `pat` is matched after `a`, if `k` of it were before. -/
def matchNext (pat : List α) (k : Nat) (a : α) : Nat := if pat[k]? = some a then k + 1 else 0

variable {pat s : List α} {k : Nat} {a : α}

theorem matchNext_suffix (h : pat.take k <:+ s) : pat.take (matchNext pat k a) <:+ s ++ [a] := by
  unfold matchNext
  split
  · rename_i hk
    obtain ⟨t, ht⟩ := h
    refine ⟨t, ?_⟩
    rw [take_add_one, hk, Option.toList_some, ← append_assoc, ht]
  · rw [take_zero]
    exact nil_suffix

theorem matchNext_lt (h : pat.take k <:+ s) (hno : ¬pat <:+: s ++ [a]) : matchNext pat k a < pat.length := by
  by_contra hge
  have hsuf := matchNext_suffix (a := a) h
  rw [take_of_length_le (Nat.not_lt.mp hge)] at hsuf
  exact hno hsuf.isInfix

theorem matchNext_of_notMem (h : a ∉ pat) : matchNext pat k a = 0 :=
  if_neg fun hk => h (mem_of_getElem? hk)

end Aworker.Lib
