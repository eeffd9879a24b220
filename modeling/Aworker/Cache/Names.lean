/-
  Aworker.Cache.Names — the order of the cache names (lib/cache.js: `CacheStorage.open`,
  `delete`, `keys`, `match`; aworker_cache.cc: `CacheStorage::Ensure`, `Delete`, `List`).

  `Ensure` appends a name that is not on the storage page. `Delete` swaps the name with the
  last one and removes the last. `keys()` is the page's list, and `match` asks the caches
  in that order. A name goes to the page as UTF-8 (`Utf8Value`) and comes back through
  `NewFromUtf8(.. .c_str())`; one with a lone surrogate or a NUL does not come back as it was.

  Calls that do not overlap do to the page what `execStorage` says (`alone_storage`), so
  the names are followed over lists of calls; `names_on_disk` is the link.

  - `inOrderCreated_iff`: the names that were opened and not deleted since, in the order of
    their last creation, are what appending and erasing leave.
  - `order_changed`: of three names the first is deleted, and the other two change places.
  Also `names_in_order_iff`.
-/

import Mathlib
import Aworker.Cache.Storages

namespace Aworker.Cache.CacheStorage

open Aworker.Lib List Option

variable {N : Type} [DecidableEq N]

/-! ## Calls by name -/

structure NameCoding (N : Type) where
  /-- `Utf8Value::ToString` -/
  utf8 : N → String
  /-- `NewFromUtf8` of the `c_str()` -/
  fromUtf8 : String → N

def NameCoding.ComesBack (C : NameCoding N) (n : N) : Prop := C.fromUtf8 (C.utf8 n) = n

inductive NameCall (N : Type) where
  | openCache (cacheName : N)
  | deleteCache (cacheName : N)
  deriving DecidableEq

def NameCall.binding (C : NameCoding N) : NameCall N → StorageCall
  | .openCache n => .ensure (C.utf8 n)
  | .deleteCache n => .delete (C.utf8 n)

def listed (page : Option CacheStoragePage) : List String := (page.map CacheStoragePage.caches).getD []

/-- `List`: a page that cannot be read lists nothing. -/
def keys (C : NameCoding N) (page : Option CacheStoragePage) : List N := (listed page).map C.fromUtf8

/-- `CacheStorage.match`: `lookup` is `match` of the cache of that name. -/
def storageMatch {R : Type} (C : NameCoding N) (lookup : N → Option R) (page : Option CacheStoragePage) : Option R :=
  (keys C page).findSome? lookup

structure Names (N : Type) where
  page : Option CacheStoragePage := none
  /-- the calls so far -/
  calls : List (NameCall N) := []

def namesStep (C : NameCoding N) (s : Names N) (k : NameCall N) : Option (Names N) :=
  some { page := (execStorage (k.binding C) s.page).2, calls := s.calls ++ [k] }

/-! ## The order of creation -/

/-- When a name was last created, of calls with the newest first. -/
def createdIn : List (NameCall N) → N → Option Nat
  | [], _ => none
  | .openCache m :: older, n => if m = n then some ((createdIn older n).getD older.length) else createdIn older n
  | .deleteCache m :: older, n => if m = n then none else createdIn older n

def created (calls : List (NameCall N)) (n : N) : Option Nat := createdIn calls.reverse n

/-- The names opened and not deleted since, each once, in the order of their last creation. -/
structure InOrderCreated (calls : List (NameCall N)) (l : List N) : Prop where
  nodup : l.Nodup
  mem : ∀ n, n ∈ l ↔ ∃ i, created calls n = some i
  order : l.Pairwise fun a b => ∀ i j, created calls a = some i → created calls b = some j → i < j

def leave (l : List N) : NameCall N → List N
  | .openCache n => if n ∈ l then l else l ++ [n]
  | .deleteCache n => l.erase n

def namesLeft (calls : List (NameCall N)) : List N := calls.foldl leave []

theorem namesLeft_snoc (calls : List (NameCall N)) (k : NameCall N) : namesLeft (calls ++ [k]) = leave (namesLeft calls) k :=
  foldl_concat _ _ _ _

theorem created_open (calls : List (NameCall N)) (m n : N) :
    created (calls ++ [.openCache m]) n = if m = n then some ((created calls n).getD calls.length) else created calls n := by
  simp [created, createdIn]

theorem created_delete (calls : List (NameCall N)) (m n : N) :
    created (calls ++ [.deleteCache m]) n = if m = n then none else created calls n := by
  simp [created, createdIn]

variable {calls : List (NameCall N)} {n : N}

theorem created_lt {i : Nat} (h : created calls n = some i) : i < calls.length := by
  induction calls using List.reverseRecOn generalizing i with
  | nil => cases h
  | append_singleton calls k ih =>
    rw [length_append, length_singleton]
    cases k with
    | openCache m =>
      rw [created_open] at h
      split at h
      · obtain rfl := Option.some.inj h
        cases hc : created calls n with
        | none => simp
        | some j => exact (ih hc).trans (Nat.lt_succ_self _)
      · exact (ih h).trans (Nat.lt_succ_self _)
    | deleteCache m =>
      rw [created_delete] at h
      split at h
      · cases h
      · exact (ih h).trans (Nat.lt_succ_self _)

variable {l : List N}

theorem InOrderCreated.openCache (h : InOrderCreated calls l) (n : N) :
    InOrderCreated (calls ++ [.openCache n]) (leave l (.openCache n)) := by
  by_cases hn : n ∈ l
  · -- a name that is there keeps its time
    have hsame : created (calls ++ [.openCache n]) = created calls := by
      funext m
      obtain ⟨i, hi⟩ := (h.mem n).mp hn
      rw [created_open]
      split
      · next hm =>
        subst hm
        simp [hi]
      · rfl
    rw [leave, if_pos hn]
    exact ⟨h.nodup, by rw [hsame]; exact h.mem, by rw [hsame]; exact h.order⟩
  · have hnone : created calls n = none := by
      rw [eq_none_iff_forall_ne_some]
      intro i hi
      exact hn ((h.mem n).mpr ⟨i, hi⟩)
    have hold : ∀ m ∈ l, created (calls ++ [.openCache n]) m = created calls m := by
      intro m hm
      rw [created_open, if_neg]
      rintro rfl
      exact hn hm
    have hnew : created (calls ++ [.openCache n]) n = some calls.length := by
      rw [created_open, if_pos rfl, hnone, getD_none]
    rw [leave, if_neg hn]
    refine ⟨nodup_append.mpr ⟨h.nodup, nodup_singleton n, ?_⟩, ?_, ?_⟩
    · intro a ha b hb
      rw [mem_singleton.mp hb]
      rintro rfl
      exact hn ha
    · intro m
      rw [mem_append, mem_singleton, created_open]
      by_cases hm : n = m
      · simp [hm]
      · rw [if_neg hm, h.mem]
        simp [Ne.symm hm]
    · refine pairwise_append.mpr ⟨?_, pairwise_singleton _ _, ?_⟩
      · refine h.order.imp_of_mem ?_
        intro a b ha hb hab
        rw [hold a ha, hold b hb]
        exact hab
      · intro a ha b hb i j hi hj
        rw [mem_singleton.mp hb, hnew] at hj
        rw [hold a ha] at hi
        have hlt := created_lt hi
        have hj := Option.some.inj hj
        omega

theorem InOrderCreated.deleteCache (h : InOrderCreated calls l) (n : N) :
    InOrderCreated (calls ++ [.deleteCache n]) (leave l (.deleteCache n)) := by
  refine ⟨h.nodup.erase n, ?_, ?_⟩
  · intro m
    rw [leave, h.nodup.mem_erase_iff, h.mem, created_delete]
    by_cases hm : n = m
    · simp [hm]
    · simp [hm, Ne.symm hm]
  · refine (h.order.sublist erase_sublist).imp ?_
    intro a b hab i j hi hj
    rw [created_delete] at hi hj
    split at hi
    · cases hi
    · split at hj
      · cases hj
      · exact hab i j hi hj

theorem inOrderCreated_namesLeft (calls : List (NameCall N)) : InOrderCreated calls (namesLeft calls) := by
  induction calls using List.reverseRecOn with
  | nil => exact ⟨nodup_nil, by simp [namesLeft, created, createdIn], List.Pairwise.nil⟩
  | append_singleton calls k ih =>
    rw [namesLeft_snoc]
    cases k with
    | openCache n => exact ih.openCache n
    | deleteCache n => exact ih.deleteCache n

theorem inOrderCreated_iff : InOrderCreated calls l ↔ l = namesLeft calls := by
  constructor
  · intro h
    have h' := inOrderCreated_namesLeft calls
    have hperm : l.Perm (namesLeft calls) := by
      refine (perm_ext_iff_of_nodup h.nodup h'.nodup).mpr fun n => ?_
      rw [h.mem, h'.mem]
    refine hperm.eq_of_pairwise ?_ h.order h'.order
    intro a b ha hb hab hba
    obtain ⟨i, hi⟩ := (h.mem a).mp ha
    obtain ⟨j, hj⟩ := (h'.mem b).mp hb
    exact absurd (hab i j hi hj) (Nat.lt_asymm (hba j i hj hi))
  · rintro rfl
    exact inOrderCreated_namesLeft calls

/-! ## Swap and remove -/

variable {pre post : List String} {b : String}

theorem swapRemove_split (hb : b ∉ pre) :
    swapRemove (pre ++ b :: post) b = pre ++ (post.getLast?.toList ++ post.dropLast) := by
  have hidx : (pre ++ b :: post).findIdx? (· == b) = some pre.length := by
    have hpre : pre.findIdx? (· == b) = none := by
      rw [findIdx?_eq_none_iff]
      intro x hx
      rw [beq_eq_false_iff_ne]
      rintro rfl
      exact hb hx
    simp [findIdx?_append, hpre, findIdx?_cons]
  unfold swapRemove
  rw [hidx]
  rcases eq_nil_or_concat post with rfl | ⟨front, last, rfl⟩
  · simp
  · have hsplit : pre ++ b :: front.concat last = (pre ++ b :: front) ++ [last] := by simp
    have hset : ((pre ++ b :: front) ++ [last]).set pre.length last = (pre ++ last :: front) ++ [last] := by simp
    simp only [hsplit, List.getLast?_concat, getD_some, hset, dropLast_concat]
    simp

theorem swapRemove_perm {l : List String} (hb : b ∈ l) : (swapRemove l b).Perm (l.erase b) := by
  obtain ⟨pre, post, rfl, hpre⟩ := eq_append_cons_of_mem hb
  rw [swapRemove_split hpre, erase_append_right _ hpre, erase_cons_head]
  refine List.Perm.append_left pre ?_
  rcases eq_nil_or_concat post with rfl | ⟨front, last, rfl⟩
  · simp
  · simpa using (perm_append_singleton last front).symm

/-- `b` is the last of `l` or the one before it. -/
def LastTwo (l : List String) (b : String) : Prop := b ∈ l.drop (l.length - 2)

instance (l : List String) (b : String) : Decidable (LastTwo l b) := inferInstanceAs (Decidable (b ∈ _))

theorem lastTwo_split (hnd : (pre ++ b :: post).Nodup) : LastTwo (pre ++ b :: post) b ↔ post.length ≤ 1 := by
  have hb : b ∉ post := (nodup_cons.mp (nodup_append.mp hnd).2.1).1
  have hlen : (pre ++ b :: post).length = pre.length + post.length + 1 := by simp; omega
  rw [LastTwo, hlen]
  constructor
  · intro hm
    by_contra hlong
    -- the last two are behind `b`
    have hdrop : (pre ++ b :: post).drop (pre.length + post.length + 1 - 2) = post.drop (post.length - 2) := by
      rw [show pre.length + post.length + 1 - 2 = pre.length + (post.length - 2 + 1) by omega, drop_append]
      simp
    rw [hdrop] at hm
    exact hb (mem_of_mem_drop hm)
  · intro hshort
    rw [drop_append_of_le_length (by omega)]
    exact mem_append.mpr (.inr mem_cons_self)

/-! ## `keys()` all along a run -/

/-- `keys()` lists the names in the order of their last creation, and `match` asks them in that order. -/
structure KeepsOrder (C : NameCoding N) (s : Names N) : Prop where
  keys : InOrderCreated s.calls (keys C s.page)
  matched : ∀ {R : Type} (lookup : N → Option R), storageMatch C lookup s.page = (namesLeft s.calls).findSome? lookup

theorem keepsOrder_iff {C : NameCoding N} {s : Names N} : KeepsOrder C s ↔ keys C s.page = namesLeft s.calls := by
  constructor
  · intro h
    exact inOrderCreated_iff.mp h.keys
  · intro h
    refine ⟨inOrderCreated_iff.mpr h, ?_⟩
    intro R lookup
    rw [storageMatch, h]

def OrderSafe (C : NameCoding N) (s : Names N) : NameCall N → Prop
  | .openCache n => C.ComesBack n
  | .deleteCache n => C.utf8 n ∉ listed s.page ∨ C.ComesBack n ∧ LastTwo (listed s.page) (C.utf8 n)

/-- The page's names are distinct and stand for what `keys()` gives. -/
structure Faithful (C : NameCoding N) (s : Names N) : Prop where
  nodup : (listed s.page).Nodup
  back : ∀ b ∈ listed s.page, C.utf8 (C.fromUtf8 b) = b

variable {C : NameCoding N} {s : Names N}

theorem listed_ensure (b : String) (page : Option CacheStoragePage) :
    listed (execStorage (.ensure b) page).2 = if b ∈ listed page then listed page else listed page ++ [b] := by
  cases page with
  | none => rfl
  | some page =>
    by_cases hb : b ∈ page.caches
    · simp [execStorage, listed, hb]
    · simp [execStorage, listed, hb]

theorem listed_delete (b : String) (page : Option CacheStoragePage) :
    listed (execStorage (.delete b) page).2 = if b ∈ listed page then swapRemove (listed page) b else listed page := by
  cases page with
  | none => rfl
  | some page =>
    by_cases hb : b ∈ page.caches
    · simp [execStorage, listed, hb]
    · simp [execStorage, listed, hb]

omit [DecidableEq N] in
theorem Faithful.mem_keys (h : Faithful C s) (n : N) : n ∈ keys C s.page ↔ C.ComesBack n ∧ C.utf8 n ∈ listed s.page := by
  rw [keys, List.mem_map]
  constructor
  · rintro ⟨b, hb, rfl⟩
    have hback := h.back b hb
    exact ⟨congrArg C.fromUtf8 hback, by rwa [hback]⟩
  · rintro ⟨hn, hb⟩
    exact ⟨C.utf8 n, hb, hn⟩

theorem openCache_keys (h : Faithful C s) (n : N) :
    keys C (execStorage (.ensure (C.utf8 n)) s.page).2 = leave (keys C s.page) (.openCache n) ↔ C.ComesBack n := by
  by_cases hb : C.utf8 n ∈ listed s.page
  · rw [keys, listed_ensure, if_pos hb, leave]
    by_cases hn : C.ComesBack n
    · rw [if_pos ((h.mem_keys n).mpr ⟨hn, hb⟩)]
      exact iff_of_true rfl hn
    · rw [if_neg fun hm => hn ((h.mem_keys n).mp hm).1]
      refine iff_of_false ?_ hn
      intro he
      simpa [keys] using congrArg List.length he
  · rw [keys, listed_ensure, if_neg hb, leave, if_neg fun hm => hb ((h.mem_keys n).mp hm).2, map_append, keys,
      append_right_inj, map_singleton, singleton_inj]
    rfl

theorem deleteCache_keys_split (h : Faithful C s) (hl : listed s.page = pre ++ C.utf8 n :: post)
    (hpre : C.utf8 n ∉ pre) (hn : C.ComesBack n) :
    (swapRemove (listed s.page) (C.utf8 n)).map C.fromUtf8 = (keys C s.page).erase n ↔ post.length ≤ 1 := by
  have hpost : (C.utf8 n :: post).Nodup := (nodup_append.mp (hl ▸ h.nodup)).2.1
  have hback : ∀ b ∈ pre ++ C.utf8 n :: post, C.utf8 (C.fromUtf8 b) = b := fun b hb => h.back b (hl ▸ hb)
  have herase : (keys C s.page).erase n = (pre ++ post).map C.fromUtf8 := by
    have hnot : n ∉ pre.map C.fromUtf8 := by
      rw [List.mem_map]
      rintro ⟨b, hb, rfl⟩
      exact hpre ((hback b (mem_append_left _ hb)).symm ▸ hb)
    rw [keys, hl, map_append, map_cons, hn, erase_append_right _ hnot, erase_cons_head, map_append]
  rw [herase, hl, swapRemove_split hpre, map_append, @map_append _ _ C.fromUtf8 pre, append_right_inj]
  rcases eq_nil_or_concat post with rfl | ⟨front, last, rfl⟩
  · simp
  · cases front with
    | nil => simp
    | cons b front =>
      -- the last name comes first now, and it is not the one that was first
      refine iff_of_false ?_ (by simp)
      intro he
      have hlast : ((b :: front).concat last).getLast? = some last := by
        rw [concat_eq_append, List.getLast?_concat]
      have hb : C.fromUtf8 last = C.fromUtf8 b := by
        rw [hlast] at he
        exact (List.cons.inj he).1
      have hsame : last = b := by
        rw [← hback last (by simp), ← hback b (by simp), hb]
      rw [hsame] at hpost
      simp at hpost

theorem deleteCache_keys (h : Faithful C s) (n : N) :
    keys C (execStorage (.delete (C.utf8 n)) s.page).2 = leave (keys C s.page) (.deleteCache n) ↔ OrderSafe C s (.deleteCache n) := by
  by_cases hb : C.utf8 n ∈ listed s.page
  · rw [keys, listed_delete, if_pos hb, leave, OrderSafe]
    obtain ⟨pre, post, hl, hpre⟩ := eq_append_cons_of_mem hb
    have hlast : LastTwo (listed s.page) (C.utf8 n) ↔ post.length ≤ 1 := by
      rw [hl]
      exact lastTwo_split (hl ▸ h.nodup)
    by_cases hn : C.ComesBack n
    · rw [deleteCache_keys_split h hl hpre hn, hlast]
      simp [hb, hn]
    · -- one name less on the page, and none less expected
      refine iff_of_false ?_ (by simp [hb, hn])
      intro he
      rw [erase_of_not_mem fun hm => hn ((h.mem_keys n).mp hm).1] at he
      have hlen := congrArg List.length he
      rw [hl, swapRemove_split hpre, keys, hl] at hlen
      rcases eq_nil_or_concat post with rfl | ⟨front, last, rfl⟩
      · simp at hlen
      · simp at hlen
  · rw [keys, listed_delete, if_neg hb, leave, erase_of_not_mem fun hm => hb ((h.mem_keys n).mp hm).2]
    exact iff_of_true rfl (.inl hb)

variable {s' : Names N} {k : NameCall N}

theorem namesStep_keeps (h : Faithful C s) (hk : KeepsOrder C s) (hs : namesStep C s k = some s') :
    KeepsOrder C s' ↔ OrderSafe C s k := by
  obtain rfl := Option.some.inj hs
  have hkeys := keepsOrder_iff.mp hk
  rw [keepsOrder_iff, namesLeft_snoc, ← hkeys]
  cases k with
  | openCache n => exact openCache_keys h n
  | deleteCache n => exact deleteCache_keys h n

omit [DecidableEq N] in
theorem namesStep_faithful (h : Faithful C s) (hk : OrderSafe C s k) (hs : namesStep C s k = some s') :
    Faithful C s' := by
  obtain rfl := Option.some.inj hs
  cases k with
  | openCache n =>
    have hl : listed (execStorage (.ensure (C.utf8 n)) s.page).2 = _ := listed_ensure (C.utf8 n) s.page
    by_cases hb : C.utf8 n ∈ listed s.page
    · rw [if_pos hb] at hl
      exact ⟨hl ▸ h.nodup, hl ▸ h.back⟩
    · rw [if_neg hb] at hl
      refine ⟨hl ▸ nodup_append.mpr ⟨h.nodup, nodup_singleton _, ?_⟩, hl ▸ ?_⟩
      · intro a ha b hb'
        rw [mem_singleton.mp hb']
        rintro rfl
        exact hb ha
      · exact forall_mem_append.mpr ⟨h.back, forall_mem_singleton.mpr (congrArg C.utf8 hk)⟩
  | deleteCache n =>
    have hl : listed (execStorage (.delete (C.utf8 n)) s.page).2 = _ := listed_delete (C.utf8 n) s.page
    by_cases hb : C.utf8 n ∈ listed s.page
    · rw [if_pos hb] at hl
      have hperm := swapRemove_perm hb
      refine ⟨hl ▸ hperm.nodup_iff.mpr (h.nodup.erase _), hl ▸ ?_⟩
      intro b hm
      exact h.back b (mem_of_mem_erase (hperm.mem_iff.mp hm))
    · rw [if_neg hb] at hl
      exact ⟨hl ▸ h.nodup, hl ▸ h.back⟩

omit [DecidableEq N] in
theorem namesRun (C : NameCoding N) (s : Names N) (calls : List (NameCall N)) :
    run (namesStep C) s calls =
      some { page := (replay execStorage s.page (calls.map (NameCall.binding C))).2, calls := s.calls ++ calls } := by
  induction calls generalizing s with
  | nil => simp [replay]
  | cons k calls ih =>
    rw [run_cons]
    refine ⟨_, rfl, ?_⟩
    rw [ih]
    simp [replay]

omit [DecidableEq N] in
/-- Calls on an empty storage, none overlapping another, leave the page of the run. -/
theorem names_on_disk {o : List (NameCall N × Bool)} {t : StorageDisk} (h : InOrder storageTask (NameCall.binding C) {} o t) :
    run (namesStep C) {} (o.map Prod.fst) = some { page := t.page, calls := o.map Prod.fst } := by
  have hsettled : Settled ({} : StorageDisk).file := by
    intro g hg
    cases hg
  obtain ⟨hrep, -⟩ := inOrder_replay alone_storage hsettled h
  have hpage : (replay execStorage none (o.map fun p => p.1.binding C)).2 = t.page := congrArg Prod.snd hrep
  rw [namesRun, List.map_map, nil_append]
  exact congrArg (fun page => some (Names.mk page (o.map Prod.fst))) hpage

/-- Over every sequence of calls on an empty storage: `keys()` is at every moment the list
    of the names in the order of their last creation exactly if every name that is opened
    comes back from the page, and every deleted name is not on the page, or comes back and
    is one of its last two. -/
theorem names_in_order_iff (C : NameCoding N) (calls : List (NameCall N)) :
    (∀ u, Reached (namesStep C) {} calls u → KeepsOrder C u) ↔ Along (namesStep C) (OrderSafe C) {} calls := by
  have h0 : Faithful C ({} : Names N) := ⟨nodup_nil, by simp [listed]⟩
  have hp : KeepsOrder C ({} : Names N) := keepsOrder_iff.mpr rfl
  refine reached_iff_along_while (A := fun _ _ => True) ?_ ?_ h0 hp (along_true _ _) (namesRun C {} calls)
  · intro s k s' h _ hk hk' hs
    exact namesStep_faithful h ((namesStep_keeps h hk hs).mp hk') hs
  · intro s k s' h _ hk hs
    exact namesStep_keeps h hk hs

def plainNames : NameCoding String := ⟨id, id⟩

theorem names_on_disk_one : ∃ t, InOrder storageTask (NameCall.binding plainNames) {} [(.openCache "v1", true)] t ∧
    run (namesStep plainNames) {} [.openCache "v1"] = some { page := t.page, calls := [.openCache "v1"] } :=
  have h := InOrder.snoc (.openCache "v1") .nil ⟨[.writeDone], _, rfl, rfl⟩
  ⟨_, h, names_on_disk h⟩

theorem order_changed :
    run (namesStep plainNames) {} [.openCache "v1", .openCache "v2", .openCache "v3", .deleteCache "v1"] =
        some { page := some { caches := ["v3", "v2"] },
               calls := [.openCache "v1", .openCache "v2", .openCache "v3", .deleteCache "v1"] } ∧
      keys plainNames (some { caches := ["v3", "v2"] }) = ["v3", "v2"] ∧
      namesLeft [.openCache "v1", .openCache "v2", .openCache "v3", .deleteCache "v1"] = ["v2", "v3"] := by
  refine ⟨?_, rfl, rfl⟩
  rw [namesRun]
  rfl

end Aworker.Cache.CacheStorage
