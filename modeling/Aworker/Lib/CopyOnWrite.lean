/-
  Aworker.Lib.CopyOnWrite — arrays of mutable cells that several owners may share.

  Every owner holds the address of an array, an array the addresses of its cells. `share` gives
  an array to one owner more and takes the mark from it; `own` gives an owner a marked array of
  its own, with copies of the cells, before it writes. The mark is the array's: it says that the
  array has one owner at most (`Separated`), not which.

  - `own_view`: what the owners hold is the same before and after the copy.
  - `upsert_mutation` / `keep_mutation`: the writes, in place, and what they do to the contents.
  Also `view_mutation`.
-/

import Mathlib

namespace Aworker.Lib

open List Option Function

/-- The first entry that takes the value is replaced; if there is none, `v` is added. -/
def upsert {V : Type} (take : V → Option V) (v : V) : List V → List V
  | [] => [v]
  | x :: xs => match take x with
    | some y => y :: xs
    | none => x :: upsert take v xs

variable {items pre ps : List Nat}

namespace CopyOnWrite

structure Arr where
  items : List Nat
  unique : Bool

structure Heap (V : Type) where
  cells : Nat → V
  cellCount : Nat
  arrays : Nat → Arr
  arrayCount : Nat
  /-- The array of each owner. -/
  owners : List Nat

variable {V : Type}

namespace Heap

def empty [Inhabited V] : Heap V := ⟨fun _ => default, 0, fun _ => ⟨[], false⟩, 0, []⟩

def read (h : Heap V) (a : Nat) : List V := (h.arrays a).items.map h.cells

/-- What every owner holds. -/
def view (h : Heap V) : List (List V) := h.owners.map h.read

/-! ## Owners -/

/-- A new array, marked, and who owns what then. -/
def install (h : Heap V) (items owners : List Nat) : Heap V :=
  { h with arrays := Function.update h.arrays h.arrayCount ⟨items, true⟩, arrayCount := h.arrayCount + 1, owners := owners }

def create (h : Heap V) : Heap V := h.install [] (h.owners ++ [h.arrayCount])

def share (h : Heap V) (a : Nat) : Heap V :=
  { h with arrays := Function.update h.arrays a { h.arrays a with unique := false }, owners := h.owners ++ [a] }

def alloc (h : Heap V) (v : V) : Heap V :=
  { h with cells := Function.update h.cells h.cellCount v, cellCount := h.cellCount + 1 }

/-- New cells with the contents of `items`. -/
def dup (h : Heap V) : List Nat → Heap V × List Nat
  | [] => (h, [])
  | p :: ps =>
    let rest := (h.alloc (h.cells p)).dup ps
    (rest.1, h.cellCount :: rest.2)

/-- Owner `i`, of the array `a`, is given an array of its own. -/
def own (h : Heap V) (i a : Nat) : Heap V × Nat :=
  if (h.arrays a).unique then (h, a)
  else
    let copy := h.dup (h.arrays a).items
    (copy.1.install copy.2 (copy.1.owners.set i copy.1.arrayCount), copy.1.arrayCount)

/-! ## Writes -/

def assign (h : Heap V) (p : Nat) (v : V) : Heap V := { h with cells := Function.update h.cells p v }

def push (h : Heap V) (a : Nat) (v : V) : Heap V :=
  { h.alloc v with arrays := Function.update h.arrays a { h.arrays a with items := (h.arrays a).items ++ [h.cellCount] } }

/-- The loop over the items of `a` that are left. -/
def upsertFrom (h : Heap V) (a : Nat) (take : V → Option V) (v : V) : List Nat → Heap V
  | [] => h.push a v
  | p :: ps => match take (h.cells p) with
    | some w => h.assign p w
    | none => h.upsertFrom a take v ps

def upsert (h : Heap V) (a : Nat) (take : V → Option V) (v : V) : Heap V := h.upsertFrom a take v (h.arrays a).items

def keep (h : Heap V) (a : Nat) (p : V → Bool) : Heap V :=
  { h with arrays := Function.update h.arrays a { h.arrays a with items := (h.arrays a).items.filter fun c => p (h.cells c) } }

end Heap

variable {h h' : Heap V} {a b i : Nat} {f g : List V → List V}

/-! ## No cell in two arrays, no marked array with two owners -/

structure Separated (h : Heap V) : Prop where
  owner_lt : ∀ a ∈ h.owners, a < h.arrayCount
  item_lt : ∀ a < h.arrayCount, ∀ p ∈ (h.arrays a).items, p < h.cellCount
  nodup : ∀ a < h.arrayCount, (h.arrays a).items.Nodup
  disjoint : ∀ a < h.arrayCount, ∀ b < h.arrayCount, ∀ p ∈ (h.arrays a).items, p ∈ (h.arrays b).items → a = b
  unique : ∀ i j a : Nat, h.owners[i]? = some a → h.owners[j]? = some a → (h.arrays a).unique = true → i = j

theorem empty_separated [Inhabited V] : Separated (Heap.empty : Heap V) :=
  ⟨by simp [Heap.empty], by simp [Heap.empty], by simp [Heap.empty], by simp [Heap.empty], by simp [Heap.empty]⟩

theorem Separated.lt_of_owner (hs : Separated h) (hi : h.owners[i]? = some a) : a < h.arrayCount :=
  hs.owner_lt a (mem_of_getElem? hi)

theorem read_congr (hitems : (h'.arrays a).items = (h.arrays a).items) (hcells : ∀ p ∈ (h.arrays a).items, h'.cells p = h.cells p) :
    h'.read a = h.read a := by
  rw [Heap.read, Heap.read, hitems]
  exact map_congr_left hcells

theorem share_items (h : Heap V) (a b : Nat) : ((h.share a).arrays b).items = (h.arrays b).items := by
  show (Function.update h.arrays a { h.arrays a with unique := false } b).items = _
  by_cases hb : b = a
  · rw [hb, update_self]
  · rw [update_of_ne hb]

theorem share_read (h : Heap V) (a b : Nat) : (h.share a).read b = h.read b :=
  read_congr (share_items h a b) fun _ _ => rfl

theorem share_view (h : Heap V) (a : Nat) : (h.share a).view = h.view ++ [h.read a] := by
  show (h.owners ++ [a]).map (h.share a).read = _
  rw [map_append, map_singleton, share_read, Heap.view]
  congr 1
  exact map_congr_left fun b _ => share_read h a b

theorem getElem?_concat_eq_some {l : List Nat} {k : Nat} (hk : (l ++ [a])[k]? = some b) : l[k]? = some b ∨ k = l.length ∧ b = a := by
  rw [getElem?_append] at hk
  split at hk
  · exact Or.inl hk
  · rename_i hle
    rw [getElem?_singleton] at hk
    split at hk
    · exact Or.inr ⟨by omega, (Option.some.inj hk).symm⟩
    · cases hk

theorem share_separated (hs : Separated h) (ha : a < h.arrayCount) : Separated (h.share a) := by
  have hitems := share_items h a
  refine ⟨fun b hb => ?_, fun b hb p hp => ?_, fun b hb => ?_, fun b hb c hc p hpb hpc => ?_, fun i j b hi hj hu => ?_⟩
  · rcases mem_append.mp hb with hb | hb
    · exact hs.owner_lt b hb
    · rw [mem_singleton.mp hb]
      exact ha
  · rw [hitems] at hp
    exact hs.item_lt b hb p hp
  · rw [hitems]
    exact hs.nodup b hb
  · rw [hitems] at hpb hpc
    exact hs.disjoint b hb c hc p hpb hpc
  · -- the array that has one owner more is not marked any longer
    have hne : b ≠ a := by
      rintro rfl
      simp [Heap.share] at hu
    have hmark : (h.arrays b).unique = true := by
      have heq : (h.share a).arrays b = h.arrays b := update_of_ne hne _ _
      rwa [heq] at hu
    have hlast {k : Nat} (hk : (h.owners ++ [a])[k]? = some b) : h.owners[k]? = some b :=
      (getElem?_concat_eq_some hk).resolve_right fun hk => hne hk.2
    exact hs.unique i j b (hlast hi) (hlast hj) hmark

/-- If cells are added to the array `a` only, and new ones, no cell is in two arrays. -/
theorem disjoint_of_fresh {n : Nat} (hs : Separated h)
    (hmem : ∀ b < n, ∀ p ∈ (h'.arrays b).items, b < h.arrayCount ∧ p ∈ (h.arrays b).items ∨ b = a ∧ h.cellCount ≤ p) :
    ∀ b < n, ∀ c < n, ∀ p ∈ (h'.arrays b).items, p ∈ (h'.arrays c).items → b = c := by
  intro b hb c hc p hpb hpc
  rcases hmem b hb p hpb with ⟨hltb, hpb⟩ | ⟨hba, hnew⟩
  · rcases hmem c hc p hpc with ⟨hltc, hpc⟩ | ⟨-, hnew⟩
    · exact hs.disjoint b hltb c hltc p hpb hpc
    · exact absurd (hs.item_lt b hltb p hpb) (Nat.not_lt.mpr hnew)
  · rcases hmem c hc p hpc with ⟨hltc, hpc⟩ | ⟨hca, -⟩
    · exact absurd (hs.item_lt c hltc p hpc) (Nat.not_lt.mpr hnew)
    · rw [hba, hca]

/-! ## New arrays -/

/-- `copies` are new cells of `h'` with what `items` hold in `h`. -/
structure Dup (h : Heap V) (items : List Nat) (h' : Heap V) (copies : List Nat) : Prop where
  arrays : h'.arrays = h.arrays
  arrayCount : h'.arrayCount = h.arrayCount
  owners : h'.owners = h.owners
  count : h.cellCount ≤ h'.cellCount
  old : ∀ p < h.cellCount, h'.cells p = h.cells p
  fresh : ∀ p ∈ copies, h.cellCount ≤ p ∧ p < h'.cellCount
  nodup : copies.Nodup
  contents : copies.map h'.cells = items.map h.cells

theorem dup_spec (hlt : ∀ p ∈ items, p < h.cellCount) : Dup h items (h.dup items).1 (h.dup items).2 := by
  induction items generalizing h with
  | nil => exact ⟨rfl, rfl, rfl, le_rfl, fun _ _ => rfl, by simp [Heap.dup], nodup_nil, rfl⟩
  | cons p ps ih =>
    have hps : ∀ q ∈ ps, q < h.cellCount := fun q hq => hlt q (mem_cons_of_mem p hq)
    have hold : ∀ q < h.cellCount, (h.alloc (h.cells p)).cells q = h.cells q := fun q hq => update_of_ne hq.ne _ _
    have hd := ih (h := h.alloc (h.cells p)) fun q hq => (hps q hq).trans (Nat.lt_succ_self _)
    have hcount : h.cellCount + 1 ≤ ((h.alloc (h.cells p)).dup ps).1.cellCount := hd.count
    refine ⟨hd.arrays, hd.arrayCount, hd.owners, (Nat.le_succ _).trans hcount, fun q hq => ?_, fun q hq => ?_, ?_, ?_⟩
    · rw [← hold q hq]
      exact hd.old q (hq.trans (Nat.lt_succ_self _))
    · rcases mem_cons.mp hq with rfl | hq
      · exact ⟨le_rfl, hcount⟩
      · have hle : h.cellCount + 1 ≤ q := (hd.fresh q hq).1
        exact ⟨(Nat.le_succ _).trans hle, (hd.fresh q hq).2⟩
    · refine nodup_cons.mpr ⟨fun hmem => ?_, hd.nodup⟩
      have hle : h.cellCount + 1 ≤ h.cellCount := (hd.fresh _ hmem).1
      omega
    · have hfirst : ((h.alloc (h.cells p)).dup ps).1.cells h.cellCount = h.cells p := by
        rw [hd.old _ (Nat.lt_succ_self h.cellCount)]
        exact update_self ..
      show ((h.alloc (h.cells p)).dup ps).1.cells h.cellCount :: ((h.alloc (h.cells p)).dup ps).2.map ((h.alloc (h.cells p)).dup ps).1.cells = _
      rw [hfirst, hd.contents, map_cons]
      congr 1
      exact map_congr_left fun q hq => hold q (hps q hq)

section Install

variable {items copies owners : List Nat}

theorem install_old (hd : Dup h items h' copies) (hb : b < h.arrayCount) : (h'.install copies owners).arrays b = h.arrays b := by
  have hne : b ≠ h'.arrayCount := by
    rw [hd.arrayCount]
    exact hb.ne
  rw [← hd.arrays]
  exact update_of_ne hne _ _

theorem install_new (hd : Dup h items h' copies) : (h'.install copies owners).arrays h.arrayCount = ⟨copies, true⟩ := by
  rw [← hd.arrayCount]
  exact update_self ..

theorem install_read (hs : Separated h) (hd : Dup h items h' copies) (hb : b < h.arrayCount) :
    (h'.install copies owners).read b = h.read b :=
  read_congr (by rw [install_old hd hb]) fun p hp => hd.old p (hs.item_lt b hb p hp)

theorem install_read_new (hd : Dup h items h' copies) : (h'.install copies owners).read h.arrayCount = items.map h.cells := by
  rw [Heap.read, install_new hd]
  exact hd.contents

/-- One owner may have the new array; the others have what they had. -/
theorem install_separated (hs : Separated h) (hd : Dup h items h' copies)
    (howners : ∀ k c, owners[k]? = some c → h.owners[k]? = some c ∨ k = i ∧ c = h.arrayCount) : Separated (h'.install copies owners) := by
  have hcount {b : Nat} : b < (h'.install copies owners).arrayCount → b < h.arrayCount ∨ b = h.arrayCount := by
    intro hb
    have hb : b < h'.arrayCount + 1 := hb
    rw [hd.arrayCount] at hb
    exact Nat.lt_succ_iff_lt_or_eq.mp hb
  refine ⟨fun b hb => ?_, fun b hb p hp => ?_, fun b hb => ?_, fun b hb c hc p hpb hpc => ?_, fun j k b hj hk hu => ?_⟩
  · show b < h'.arrayCount + 1
    rw [hd.arrayCount]
    obtain ⟨k, hk⟩ := mem_iff_getElem?.mp hb
    rcases howners k b hk with hk | ⟨-, rfl⟩
    · exact (hs.lt_of_owner hk).trans (Nat.lt_succ_self _)
    · exact Nat.lt_succ_self _
  · rcases hcount hb with hb | rfl
    · rw [install_old hd hb] at hp
      exact (hs.item_lt b hb p hp).trans_le hd.count
    · rw [install_new hd] at hp
      exact (hd.fresh p hp).2
  · rcases hcount hb with hb | rfl
    · rw [install_old hd hb]
      exact hs.nodup b hb
    · rw [install_new hd]
      exact hd.nodup
  · refine disjoint_of_fresh (a := h.arrayCount) hs (fun d hd' q hq => ?_) b hb c hc p hpb hpc
    rcases hcount hd' with hlt | rfl
    · rw [install_old hd hlt] at hq
      exact Or.inl ⟨hlt, hq⟩
    · rw [install_new hd] at hq
      exact Or.inr ⟨rfl, (hd.fresh q hq).1⟩
  · have hlast {m : Nat} (hm : h.owners[m]? = some h.arrayCount) : False := absurd (hs.lt_of_owner hm) (lt_irrefl _)
    rcases howners j b hj with hj | ⟨rfl, rfl⟩
    · rcases howners k b hk with hk | ⟨-, rfl⟩
      · rw [install_old hd (hs.lt_of_owner hj)] at hu
        exact hs.unique j k b hj hk hu
      · exact (hlast hj).elim
    · rcases howners k _ hk with hk | ⟨rfl, -⟩
      · exact (hlast hk).elim
      · rfl

end Install

theorem dup_nil (h : Heap V) : Dup h [] h [] := dup_spec (by simp)

theorem create_view (hs : Separated h) : h.create.view = h.view ++ [[]] := by
  have hold : h.owners.map h.create.read = h.owners.map h.read :=
    map_congr_left fun a ha => install_read hs (dup_nil h) (hs.owner_lt a ha)
  have hnew : h.create.read h.arrayCount = [] := install_read_new (dup_nil h)
  show (h.owners ++ [h.arrayCount]).map h.create.read = _
  rw [map_append, hold, map_singleton, hnew]
  rfl

theorem create_separated (hs : Separated h) : Separated h.create :=
  install_separated (i := h.owners.length) hs (dup_nil h) fun _ _ hk => getElem?_concat_eq_some hk

/-! ## A copy before a write -/

/-- What `own` gives: a marked array for `i`, with all that every owner held. -/
structure Owned (h : Heap V) (i : Nat) (h' : Heap V) (a' : Nat) : Prop where
  owner : h'.owners[i]? = some a'
  marked : (h'.arrays a').unique = true
  view : h'.view = h.view
  separated : Separated h'

theorem own_copies (hs : Separated h) (hi : h.owners[i]? = some a) {copies : List Nat} (hd : Dup h (h.arrays a).items h' copies) :
    Owned h i (h'.install copies (h'.owners.set i h'.arrayCount)) h'.arrayCount := by
  obtain ⟨hlen, -⟩ := List.getElem?_eq_some_iff.mp hi
  rw [hd.owners, hd.arrayCount]
  refine ⟨getElem?_set_self hlen, by rw [install_new hd], ext_getElem? fun j => ?_, install_separated (i := i) hs hd fun k c hk => ?_⟩
  · show ((h.owners.set i h.arrayCount).map _)[j]? = _
    rw [Heap.view, getElem?_map, getElem?_map]
    by_cases hj : i = j
    · rw [← hj, getElem?_set_self hlen, hi, map_some, map_some, install_read_new hd]
      rfl
    · rw [getElem?_set_ne hj]
      cases hown : h.owners[j]? with
      | none => rfl
      | some b => rw [map_some, map_some, install_read hs hd (hs.lt_of_owner hown)]
  · by_cases hik : i = k
    · rw [← hik, getElem?_set_self hlen] at hk
      exact Or.inr ⟨hik.symm, (Option.some.inj hk).symm⟩
    · rw [getElem?_set_ne hik] at hk
      exact Or.inl hk

theorem own_spec (hs : Separated h) (hi : h.owners[i]? = some a) : Owned h i (h.own i a).1 (h.own i a).2 := by
  unfold Heap.own
  split
  · rename_i hu
    exact ⟨hi, hu, rfl, hs⟩
  · exact own_copies hs hi (dup_spec (hs.item_lt a (hs.lt_of_owner hi)))

theorem own_unique (hu : (h.arrays a).unique = true) : h.own i a = (h, a) := if_pos hu

/-- A copy leaves the other arrays, and is none of them. -/
theorem own_old (hs : Separated h) (hi : h.owners[i]? = some a) (hb : b < h.arrayCount) :
    (h.own i a).1.read b = h.read b ∧ b < (h.own i a).1.arrayCount ∧ ((h.arrays a).unique = false → (h.own i a).2 ≠ b) := by
  unfold Heap.own
  split
  · rename_i hu
    refine ⟨rfl, hb, fun hno => ?_⟩
    rw [hu] at hno
    cases hno
  · have hd := dup_spec (hs.item_lt a (hs.lt_of_owner hi))
    refine ⟨install_read hs hd hb, ?_, fun _ => ?_⟩
    · show b < _ + 1
      rw [hd.arrayCount]
      exact hb.trans (Nat.lt_succ_self _)
    · show (h.dup (h.arrays a).items).1.arrayCount ≠ b
      rw [hd.arrayCount]
      exact hb.ne'

/-! ## Writes to one array -/

/-- The array `a` is changed by `f`, and nothing else is. -/
structure Mutation (h : Heap V) (a : Nat) (f : List V → List V) (h' : Heap V) : Prop where
  owners : h'.owners = h.owners
  arrayCount : h'.arrayCount = h.arrayCount
  marks : ∀ b, (h'.arrays b).unique = (h.arrays b).unique
  read : h'.read a = f (h.read a)
  frame : ∀ b < h.arrayCount, b ≠ a → h'.read b = h.read b
  separated : Separated h'

theorem Mutation.refl (hs : Separated h) (a : Nat) : Mutation h a id h :=
  ⟨rfl, rfl, fun _ => rfl, rfl, fun _ _ _ => rfl, hs⟩

theorem Mutation.of_read (m : Mutation h a f h') (he : f (h.read a) = g (h.read a)) : Mutation h a g h' :=
  { m with read := m.read.trans he }

theorem Mutation.trans {h'' : Heap V} (m : Mutation h a f h') (m' : Mutation h' a g h'') : Mutation h a (g ∘ f) h'' where
  owners := m'.owners.trans m.owners
  arrayCount := m'.arrayCount.trans m.arrayCount
  marks b := (m'.marks b).trans (m.marks b)
  read := by rw [m'.read, m.read]; rfl
  frame b hb hne := (m'.frame b (by rw [m.arrayCount]; exact hb) hne).trans (m.frame b hb hne)
  separated := m'.separated

theorem view_getElem? (hi : h.owners[i]? = some a) : h.view[i]? = some (h.read a) := by
  rw [Heap.view, getElem?_map, hi, map_some]

/-- A write to a marked array is a write to what its owner holds. -/
theorem view_mutation (hs : Separated h) (hi : h.owners[i]? = some a) (hu : (h.arrays a).unique = true) (m : Mutation h a f h') :
    h'.view = h.view.set i (f (h.read a)) := by
  have hlen : i < h.view.length := (List.getElem?_eq_some_iff.mp (view_getElem? hi)).1
  refine ext_getElem? fun j => ?_
  rw [Heap.view, m.owners, getElem?_map]
  by_cases hij : i = j
  · rw [← hij, getElem?_set_self hlen, hi, map_some, m.read]
  · rw [getElem?_set_ne hij, Heap.view, getElem?_map]
    cases hj : h.owners[j]? with
    | none => rfl
    | some b =>
      have hne : b ≠ a := by
        rintro rfl
        exact hij (hs.unique i j b hi hj hu)
      rw [map_some, map_some, m.frame b (hs.lt_of_owner hj) hne]

theorem assign_mutation (hs : Separated h) (ha : a < h.arrayCount) {p : Nat} (w : V)
    (hitems : (h.arrays a).items = pre ++ p :: ps) :
    Mutation h a (fun _ => pre.map h.cells ++ w :: ps.map h.cells) (h.assign p w) := by
  have hnodup := hs.nodup a ha
  rw [hitems] at hnodup
  obtain ⟨hpre, hps, hdisj⟩ := nodup_append.mp hnodup
  have hother {q : Nat} (hq : q ≠ p) : (h.assign p w).cells q = h.cells q := update_of_ne hq _ _
  refine ⟨rfl, rfl, fun _ => rfl, ?_, fun b hb hne => read_congr rfl fun q hq => hother ?_, ⟨hs.owner_lt, hs.item_lt, hs.nodup, hs.disjoint, hs.unique⟩⟩
  · show (h.arrays a).items.map (h.assign p w).cells = _
    rw [hitems, map_append, map_cons]
    congr 1
    · exact map_congr_left fun q hq => hother fun he => hdisj q hq p mem_cons_self he
    · congr 1
      · exact update_self ..
      · exact map_congr_left fun q hq => hother fun he => (nodup_cons.mp hps).1 (he ▸ hq)
  · -- the cell stands in no other array
    rintro rfl
    exact hne (hs.disjoint b hb a ha q hq (by rw [hitems]; simp))

/-- The items of `a` give way to some of them and to new cells. -/
theorem mutation_of_items (hs : Separated h) (howners : h'.owners = h.owners) (harrayCount : h'.arrayCount = h.arrayCount)
    (harrays : h'.arrays = Function.update h.arrays a { h.arrays a with items := items })
    (hcount : h.cellCount ≤ h'.cellCount) (hold : ∀ p < h.cellCount, h'.cells p = h.cells p)
    (hitems : ∀ p ∈ items, p ∈ (h.arrays a).items ∨ h.cellCount ≤ p ∧ p < h'.cellCount) (hnodup : a < h.arrayCount → items.Nodup)
    (hread : items.map h'.cells = f (h.read a)) : Mutation h a f h' := by
  have hself : h'.arrays a = { h.arrays a with items := items } := by
    rw [harrays]
    exact update_self ..
  have hother {b : Nat} (hb : b ≠ a) : h'.arrays b = h.arrays b := by
    rw [harrays]
    exact update_of_ne hb _ _
  have hmarks (b : Nat) : (h'.arrays b).unique = (h.arrays b).unique := by
    by_cases hb : b = a
    · rw [hb, hself]
    · rw [hother hb]
  have hmem {b p : Nat} (hp : p ∈ (h'.arrays b).items) : p ∈ (h.arrays b).items ∨ b = a ∧ h.cellCount ≤ p ∧ p < h'.cellCount := by
    by_cases hb : b = a
    · rw [hb, hself] at hp
      exact (hitems p hp).imp (fun hp => hb ▸ hp) fun hp => ⟨hb, hp⟩
    · rw [hother hb] at hp
      exact Or.inl hp
  refine ⟨howners, harrayCount, hmarks, ?_, fun b hb hne => read_congr (by rw [hother hne]) fun p hp => hold p (hs.item_lt b hb p hp), ?_⟩
  · rw [Heap.read, hself]
    exact hread
  refine ⟨by rw [howners, harrayCount]; exact hs.owner_lt, fun b hb p hp => ?_, fun b hb => ?_, fun b hb c hc p hpb hpc => ?_,
    fun i j b hi hj hu => ?_⟩
  · rw [harrayCount] at hb
    rcases hmem hp with hp | ⟨-, -, hp⟩
    · exact (hs.item_lt b hb p hp).trans_le hcount
    · exact hp
  · rw [harrayCount] at hb
    by_cases hba : b = a
    · rw [hba, hself]
      exact hnodup (hba ▸ hb)
    · rw [hother hba]
      exact hs.nodup b hb
  · refine disjoint_of_fresh (a := a) hs (fun d hd q hq => ?_) b hb c hc p hpb hpc
    exact (hmem hq).imp (fun hq => ⟨harrayCount ▸ hd, hq⟩) fun hq => ⟨hq.1, hq.2.1⟩
  · rw [howners] at hi hj
    rw [hmarks] at hu
    exact hs.unique i j b hi hj hu

theorem push_mutation (hs : Separated h) (ha : a < h.arrayCount) (v : V) : Mutation h a (· ++ [v]) (h.push a v) := by
  have hold (p : Nat) (hp : p < h.cellCount) : (h.push a v).cells p = h.cells p := update_of_ne hp.ne _ _
  refine mutation_of_items hs rfl rfl rfl (Nat.le_succ _) hold (fun p hp => ?_) (fun _ => ?_) ?_
  · rcases mem_append.mp hp with hp | hp
    · exact Or.inl hp
    · rw [mem_singleton.mp hp]
      exact Or.inr ⟨le_rfl, Nat.lt_succ_self _⟩
  · refine nodup_append.mpr ⟨hs.nodup a ha, nodup_singleton _, fun p hp q hq => ?_⟩
    rw [mem_singleton.mp hq]
    exact (hs.item_lt a ha p hp).ne
  · rw [map_append, Heap.read]
    congr 1
    · exact map_congr_left fun p hp => hold p (hs.item_lt a ha p hp)
    · exact congrArg (fun x => [x]) (update_self ..)

theorem upsertFrom_mutation (hs : Separated h) (ha : a < h.arrayCount) (take : V → Option V) (v : V)
    (hitems : (h.arrays a).items = pre ++ ps) :
    Mutation h a (fun _ => pre.map h.cells ++ Lib.upsert take v (ps.map h.cells)) (h.upsertFrom a take v ps) := by
  induction ps generalizing pre with
  | nil =>
    have m := push_mutation hs ha v
    rw [append_nil] at hitems
    exact ⟨m.owners, m.arrayCount, m.marks, by rw [← hitems]; exact m.read, m.frame, m.separated⟩
  | cons p ps ih =>
    simp only [Heap.upsertFrom, map_cons, Lib.upsert]
    cases htake : take (h.cells p) with
    | some w => exact assign_mutation hs ha w hitems
    | none =>
      have m := ih (show (h.arrays a).items = (pre ++ [p]) ++ ps by rw [hitems, append_assoc, singleton_append])
      simpa only [map_append, map_singleton, append_assoc, singleton_append] using m

theorem upsert_mutation (hs : Separated h) (ha : a < h.arrayCount) (take : V → Option V) (v : V) :
    Mutation h a (Lib.upsert take v) (h.upsert a take v) := by
  have m := upsertFrom_mutation hs ha take v (nil_append (h.arrays a).items).symm
  exact ⟨m.owners, m.arrayCount, m.marks, m.read, m.frame, m.separated⟩

theorem keep_mutation (hs : Separated h) (a : Nat) (p : V → Bool) : Mutation h a (List.filter p) (h.keep a p) := by
  refine mutation_of_items hs rfl rfl rfl le_rfl (fun _ _ => rfl) (fun q hq => Or.inl (mem_of_mem_filter hq))
    (fun ha => (hs.nodup a ha).filter _) ?_
  rw [Heap.read, List.filter_map]
  rfl

end CopyOnWrite

end Aworker.Lib
