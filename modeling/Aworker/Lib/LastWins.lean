/-
  Aworker.Lib.LastWins — one entry for each key, in order of its first occurrence, with the
  last value.

  `put` replaces the entry of a key in place or adds it at the end, as a loop over an array does.
  `lastWins` says what a sequence of values leaves, without the loop.

  - `foldl_put`: the loop leaves it.
  - `lastWins_map`: keys may be taken before or after the values are converted.
-/

import Mathlib
import Aworker.Lib.CopyOnWrite

namespace Aworker.Lib

open List

variable {V W K : Type} [DecidableEq K]

/-- The entry with the key of `v` is replaced; if there is none, `v` is added. -/
def put (κ : V → K) (l : List V) (v : V) : List V := upsert (fun x => if κ x = κ v then some v else none) v l

def lastWins (κ : V → K) (vs : List V) : List V := (vs.map κ).eraseDups.filterMap fun k => (vs.filter (κ · = k)).getLast?

variable {κ : V → K} {v : V}

theorem put_new {l : List V} (h : ∀ x ∈ l, κ x ≠ κ v) : put κ l v = l ++ [v] := by
  induction l with
  | nil => rfl
  | cons x l ih =>
    obtain ⟨hx, hl⟩ := forall_mem_cons.mp h
    rw [put] at ih
    rw [put, upsert, if_neg hx]
    exact congrArg (x :: ·) (ih hl)

theorem put_old {before after : List V} {x : V} (hx : κ x = κ v) (h : ∀ y ∈ before, κ y ≠ κ v) :
    put κ (before ++ x :: after) v = before ++ v :: after := by
  induction before with
  | nil =>
    rw [put, nil_append, upsert, if_pos hx]
    rfl
  | cons y before ih =>
    obtain ⟨hy, hbefore⟩ := forall_mem_cons.mp h
    rw [put] at ih
    rw [put, cons_append, upsert, if_neg hy]
    exact congrArg (y :: ·) (ih hbefore)

theorem eraseDups_concat (l : List K) (k : K) : (l ++ [k]).eraseDups = if k ∈ l then l.eraseDups else l.eraseDups ++ [k] := by
  rw [eraseDups_append]
  by_cases hk : k ∈ l
  · simp [List.removeAll, hk]
  · simp [List.removeAll, hk, eraseDups_cons]

theorem eraseDups_nodup (l : List K) : l.eraseDups.Nodup := by
  induction l using List.reverseRecOn with
  | nil => exact nodup_nil
  | append_singleton l k ih =>
    rw [eraseDups_concat]
    split
    · exact ih
    · next hk =>
      refine nodup_append.mpr ⟨ih, nodup_singleton k, fun a ha b hb hab => hk ?_⟩
      rw [← mem_singleton.mp hb, ← hab]
      exact mem_eraseDups.mp ha

theorem getLast?_concat (κ : V → K) (vs : List V) (v : V) (k : K) :
    ((vs ++ [v]).filter (κ · = k)).getLast? = if κ v = k then some v else (vs.filter (κ · = k)).getLast? := by
  rw [filter_append]
  by_cases hk : κ v = k <;> simp [hk]

variable {vs : List V} {k : K}

theorem getLast?_isSome (hk : k ∈ vs.map κ) : ∃ v ∈ vs, (vs.filter (κ · = k)).getLast? = some v ∧ κ v = k := by
  obtain ⟨x, hx, hxk⟩ := mem_map.mp hk
  have hne : vs.filter (κ · = k) ≠ [] := ne_nil_of_mem (mem_filter.mpr ⟨hx, by simpa using hxk⟩)
  have hmem := mem_filter.mp (getLast_mem hne)
  exact ⟨_, hmem.1, getLast?_eq_some_getLast hne, by simpa using hmem.2⟩

theorem lastWins_keys (κ : V → K) (vs : List V) : (lastWins κ vs).map κ = (vs.map κ).eraseDups := by
  have hkeys : ∀ ks : List K, (∀ k ∈ ks, k ∈ vs.map κ) → (ks.filterMap fun k => (vs.filter (κ · = k)).getLast?).map κ = ks := by
    intro ks hks
    induction ks with
    | nil => rfl
    | cons k ks ih =>
      obtain ⟨hk, hrest⟩ := forall_mem_cons.mp hks
      obtain ⟨v, -, hv, hvk⟩ := getLast?_isSome hk
      rw [filterMap_cons, hv, map_cons, hvk, ih hrest]
  exact hkeys _ fun k hk => mem_eraseDups.mp hk

theorem mem_lastWins_keys : k ∈ (lastWins κ vs).map κ ↔ ∃ v ∈ vs, κ v = k := by
  rw [lastWins_keys, mem_eraseDups, mem_map]

theorem lastWins_concat (κ : V → K) (vs : List V) (v : V) : lastWins κ (vs ++ [v]) = put κ (lastWins κ vs) v := by
  -- away from the key of `v` nothing changes
  have hsame : ∀ ks : List K, κ v ∉ ks → (ks.filterMap fun k => ((vs ++ [v]).filter (κ · = k)).getLast?) =
      ks.filterMap fun k => (vs.filter (κ · = k)).getLast? := by
    intro ks hks
    refine filterMap_congr fun k hk => ?_
    have hne : κ v ≠ k := fun he => hks (he ▸ hk)
    rw [getLast?_concat, if_neg hne]
  have hapart : ∀ ks : List K, κ v ∉ ks → ∀ x ∈ ks.filterMap fun k => (vs.filter (κ · = k)).getLast?, κ x ≠ κ v := by
    intro ks hks x hx he
    obtain ⟨k, hk, hlast⟩ := mem_filterMap.mp hx
    have hxk : κ x = k := by simpa using (mem_filter.mp (mem_of_getLast? hlast)).2
    exact hks (he ▸ hxk ▸ hk)
  have hself : ((vs ++ [v]).filter (κ · = κ v)).getLast? = some v := by rw [getLast?_concat, if_pos rfl]
  rw [lastWins, map_append, map_singleton, eraseDups_concat]
  by_cases hv : κ v ∈ vs.map κ
  · rw [if_pos hv]
    obtain ⟨before, after, hsplit, hbefore⟩ := eq_append_cons_of_mem (mem_eraseDups.mpr hv)
    have hnodup := eraseDups_nodup (vs.map κ)
    rw [hsplit] at hnodup
    have hafter : κ v ∉ after := (nodup_cons.mp (nodup_append.mp hnodup).2.1).1
    obtain ⟨x, -, hx, hxk⟩ := getLast?_isSome hv
    have hold : lastWins κ vs = (before.filterMap fun k => (vs.filter (κ · = k)).getLast?) ++ x ::
        after.filterMap fun k => (vs.filter (κ · = k)).getLast? := by
      rw [lastWins, hsplit, filterMap_append, filterMap_cons, hx]
    rw [hold, put_old hxk (hapart before hbefore), hsplit, filterMap_append, filterMap_cons, hself, hsame before hbefore,
      hsame after hafter]
  · have hks : κ v ∉ (vs.map κ).eraseDups := fun hm => hv (mem_eraseDups.mp hm)
    rw [if_neg hv, filterMap_append, hsame _ hks, filterMap_cons, hself, lastWins, put_new (hapart _ hks)]
    rfl

theorem foldl_put (κ : V → K) (vs : List V) : vs.foldl (put κ) [] = lastWins κ vs := by
  induction vs using List.reverseRecOn with
  | nil => rfl
  | append_singleton vs v ih => rw [foldl_append, ih, foldl_cons, foldl_nil, lastWins_concat]

theorem lastWins_map (f : V → W) (κ : W → K) (vs : List V) : lastWins κ (vs.map f) = (lastWins (fun v => κ (f v)) vs).map f := by
  rw [lastWins, lastWins, map_map, map_filterMap]
  refine filterMap_congr fun k _ => ?_
  rw [filter_map, getLast?_map]
  rfl

end Aworker.Lib
