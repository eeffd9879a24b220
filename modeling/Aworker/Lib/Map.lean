/-
  Aworker.Lib.Map — lists and sorted maps by key.

  - `filter_key`: in a list with distinct keys, a key's entries are its one entry.
  - `toList_filter_key`: a loop over a map meets each key once, with its value.
  - `foldl_erase`: erasing a list of keys one by one erases those keys and nothing else.
  - `mem_of_get` / `get_of_mem`: a key is there exactly if it has a value.
  - `size_erase_add_one`: erasing a key that is there takes one entry.
  - `insert_some_iff` / `erase_some_iff`: where a value is found is unchanged by inserting
    another value, or erasing a key that had another one.
-/

import Mathlib

namespace Aworker.Lib

open List

open Std (TreeMap TransOrd LawfulEqOrd)

variable {α β : Type} [DecidableEq α]

theorem filter_key {f : β → α} {l : List β} (h : (l.map f).Nodup) {x : β} (hx : x ∈ l) :
    l.filter (fun y => f y = f x) = [x] := by
  induction l with
  | nil => cases hx
  | cons a l ih =>
    obtain ⟨ha, hl⟩ := nodup_cons.mp h
    rcases mem_cons.mp hx with rfl | hx
    · have hrest : l.filter (fun y => f y = f x) = [] := by
        refine filter_eq_nil_iff.mpr ?_
        intro y hy
        simp only [decide_eq_true_eq]
        intro he
        exact ha (mem_map.mpr ⟨y, hy, he⟩)
      simp [hrest]
    · have hne : f a ≠ f x := fun he => ha (mem_map.mpr ⟨x, hx, he.symm⟩)
      simp [hne, ih hl hx]

variable [Ord α] [TransOrd α] [LawfulEqOrd α]

theorem toList_filter_key (m : TreeMap α β) (k : α) :
    m.toList.filter (fun p => p.1 = k) = (m[k]?.map fun v => (k, v)).toList := by
  cases hk : m[k]? with
  | none =>
    refine filter_eq_nil_iff.mpr ?_
    rintro ⟨a, b⟩ hp he
    have hb := TreeMap.mem_toList_iff_getElem?_eq_some.mp hp
    rw [show a = k by simpa using he, hk] at hb
    cases hb
  | some v =>
    have hnodup : (m.toList.map Prod.fst).Nodup := by
      rw [List.Nodup, pairwise_map]
      exact TreeMap.distinct_keys_toList.imp fun h he => h (by rw [he]; simp)
    exact filter_key hnodup (x := (k, v)) (TreeMap.mem_toList_iff_getElem?_eq_some.mpr hk)

theorem foldl_erase (m : TreeMap α β) (ks : List α) (k : α) :
    (ks.foldl TreeMap.erase m)[k]? = if k ∈ ks then none else m[k]? := by
  induction ks generalizing m with
  | nil => simp
  | cons a ks ih =>
    rw [foldl_cons, ih]
    by_cases ha : a = k
    · simp [ha]
    · simp [TreeMap.getElem?_erase, ha, Ne.symm ha]

theorem insert_get (m : TreeMap α β) (k i : α) (v : β) : (m.insert k v)[i]? = if k = i then some v else m[i]? := by
  by_cases hi : k = i <;> simp [TreeMap.getElem?_insert, hi]

theorem erase_get (m : TreeMap α β) (k i : α) : (m.erase k)[i]? = if k = i then none else m[i]? := by
  by_cases hi : k = i <;> simp [TreeMap.getElem?_erase, hi]

variable {m : TreeMap α β} {k : α} {v w : β}

omit [DecidableEq α] in
theorem insert_some_iff (hv : v ≠ w) (hk : m[k]? ≠ some w) (i : α) : (m.insert k v)[i]? = some w ↔ m[i]? = some w := by
  classical
  rw [insert_get]
  by_cases hi : k = i
  · subst hi
    simp [hv, hk]
  · rw [if_neg hi]

omit [DecidableEq α] in
theorem erase_some_iff (hk : m[k]? ≠ some w) (i : α) : (m.erase k)[i]? = some w ↔ m[i]? = some w := by
  classical
  rw [erase_get]
  by_cases hi : k = i
  · subst hi
    simp [hk]
  · rw [if_neg hi]

omit [DecidableEq α] [LawfulEqOrd α] in
theorem mem_of_get (h : m[k]? = some v) : k ∈ m := by
  rw [TreeMap.mem_iff_isSome_getElem?, h]; rfl

omit [DecidableEq α] [LawfulEqOrd α] in
theorem get_of_mem (h : k ∈ m) : ∃ v, m[k]? = some v :=
  Option.isSome_iff_exists.mp (TreeMap.mem_iff_isSome_getElem?.mp h)

omit [DecidableEq α] [LawfulEqOrd α] in
theorem size_erase_add_one (h : k ∈ m) : (m.erase k).size + 1 = m.size := by
  have hpos : m.size ≠ 0 := by
    intro h0
    have hempty : m.isEmpty = true := by rw [TreeMap.isEmpty_eq_size_eq_zero, h0]; rfl
    exact TreeMap.not_mem_of_isEmpty hempty h
  rw [TreeMap.size_erase, if_pos (TreeMap.contains_iff_mem.mpr h)]
  omega

end Aworker.Lib
