/-
  Aworker.Fetch.HeaderModel — what the list of a `Headers` object is, from the calls that it went
  through (lib/fetch/headers.js).

  A history is the list of changes that did not throw; the constructor appends its tuples one by
  one, and a copy has the history of its original. `reported` says what the entries of a name
  then are: the values since the name was last set or deleted, joined, or for `set-cookie` the last
  value of each cookie in order of first occurrence. The code has one array for all names, which
  objects share, and a loop for each kind of call.

  - `write_described`: one call does to the entries what it adds to the history.
  - `lists_described`: after any calls on any number of objects each list is the one of its
    history, and `get`, `has` and the iterators report it.
-/

import Mathlib
import Aworker.Lib.LastWins
import Aworker.Fetch.GuardedHeaders

namespace Aworker.Fetch.Shared

open Aworker.Lib Aworker.Lib.CopyOnWrite List Option

/-! ## Histories -/

/-- A call that throws is no change. -/
def recordChange (H : List (List Change)) (i : Nat) (c : Change) : List (List Change) :=
  if c.legal then H.modify i (· ++ [c]) else H

def fills (init : HeaderList) : List Change := init.map fun e => .append e.1 e.2

def historyStep (H : List (List Change)) : Op → List (List Change)
  | .construct init => if (fills init).all Change.legal then H ++ [fills init] else H
  | .copy other => H ++ (H[other]?).toList
  | .append i name value => recordChange H i (.append name value)
  | .set i name value => recordChange H i (.set name value)
  | .delete i name => recordChange H i (.delete name)
  | _ => H

def histories (ops : List Op) : List (List Change) := ops.foldl historyStep []

def comma : Text := ", ".toList

/-- The values of `name` since it was last set or deleted, from `values` on. -/
def valuesStep (name : Text) (values : List Text) (c : Change) : List Text :=
  if toLowerCase c.name = name then
    match c with
    | .append _ value => values ++ [trimmed value]
    | .set _ value => [trimmed value]
    | .delete _ => []
  else values

/-- The cookies that were given since they were last deleted. -/
def cookiesStep (values : List Text) (c : Change) : List Text :=
  if toLowerCase c.name = setCookie then
    match c with
    | .append _ value | .set _ value => values ++ [trimmed value]
    | .delete _ => []
  else values

def joined (values : List Text) : List Text := if values = [] then [] else [List.intercalate comma values]

def reported (h : List Change) (name : Text) : List Text :=
  if name = setCookie then lastWins cookieKey (h.foldl cookiesStep []) else joined (h.foldl (valuesStep name) [])

def entriesOf (data : HeaderList) (name : Text) : List Text := (data.filter (·.1 = name)).map Prod.snd

structure Models (h : List Change) (data : HeaderList) : Prop where
  ok : HeadersOk data
  entries : ∀ name, entriesOf data name = reported h name

theorem models_nil : Models [] [] where
  ok := Headers.empty.ok
  entries name := by
    by_cases hn : name = setCookie
    · rw [reported, if_pos hn]
      rfl
    · rw [reported, if_neg hn]
      rfl

/-! ## One change -/

variable {c : Change} {data data' : HeaderList} {h : List Change}

variable {name : Text}

theorem entriesOf_upsert {v : Text} {take : Text × Text → Option (Text × Text)} {take' : Text → Option Text}
    (hother : ∀ e, e.1 ≠ name → take e = none) (hself : ∀ w, take (name, w) = (take' w).map (Prod.mk name)) (data : HeaderList) :
    entriesOf (upsert take (name, v) data) name = upsert take' v (entriesOf data name) := by
  have hcons : ∀ (w : Text) (data : HeaderList), entriesOf ((name, w) :: data) name = w :: entriesOf data name := by
    intro w data
    simp [entriesOf]
  induction data with
  | nil => exact hcons v []
  | cons e data ih =>
    obtain ⟨k, w⟩ := e
    by_cases hk : k = name
    · subst hk
      rw [upsert, hself, hcons, upsert]
      cases take' w with
      | none => exact (hcons w _).trans (congrArg (w :: ·) ih)
      | some y => exact hcons y data
    · have hskip : ∀ data : HeaderList, entriesOf ((k, w) :: data) name = entriesOf data name := by
        intro data
        simp [entriesOf, hk]
      rw [upsert, hother (k, w) hk, hskip, hskip, ih]

theorem entriesOf_other (hne : toLowerCase c.name ≠ name) (data : HeaderList) :
    entriesOf (c.write data) name = entriesOf data name :=
  congrArg (List.map Prod.snd) (filter_write (p := fun n => decide (n = name)) (decide_eq_false hne) data)

theorem entriesOf_append (value : Text) (hn : toLowerCase name ≠ setCookie) (data : HeaderList) :
    entriesOf ((Change.append name value).write data) (toLowerCase name) =
      upsert (fun w => some (w ++ comma ++ trimmed value)) (trimmed value) (entriesOf data (toLowerCase name)) := by
  rw [Change.write, ← upsert_appendTo]
  refine entriesOf_upsert (fun e he => ?_) (fun w => ?_) data
  · simp [appendTo, hn, he]
  · simp [appendTo, hn, comma]

theorem entriesOf_set (value : Text) (hn : toLowerCase name ≠ setCookie) (data : HeaderList) :
    entriesOf ((Change.set name value).write data) (toLowerCase name) =
      upsert (fun _ => some (trimmed value)) (trimmed value) (entriesOf data (toLowerCase name)) := by
  rw [Change.write, dataSet]
  refine entriesOf_upsert (fun e he => ?_) (fun w => ?_) data
  · simp [setTo, he]
  · simp [setTo, hn]

theorem entriesOf_delete (name : Text) (data : HeaderList) : entriesOf ((Change.delete name).write data) (toLowerCase name) = [] := by
  rw [Change.write, entriesOf, dataDelete, List.filter_filter, map_eq_nil_iff, filter_eq_nil_iff]
  simp

theorem entriesOf_appendCookie (value : Text) (hn : toLowerCase name = setCookie) (data : HeaderList) :
    entriesOf ((Change.append name value).write data) setCookie = put cookieKey (entriesOf data setCookie) (trimmed value) := by
  rw [Change.write, ← upsert_appendTo, hn]
  refine entriesOf_upsert (fun e he => ?_) (fun w => ?_) data
  · simp [appendTo, he]
  · by_cases hw : cookieKey w = cookieKey (trimmed value) <;> simp [appendTo, hw]

theorem entriesOf_setCookie (value : Text) (hn : toLowerCase name = setCookie) (data : HeaderList) :
    entriesOf ((Change.set name value).write data) setCookie = put cookieKey (entriesOf data setCookie) (trimmed value) := by
  rw [Change.write, dataSet, hn]
  refine entriesOf_upsert (fun e he => ?_) (fun w => ?_) data
  · simp [setTo, he]
  · by_cases hw : cookieKey w = cookieKey (trimmed value)
    · simp [setTo, hw]
    · simp [setTo, hw, Ne.symm hw]

variable {values : List Text}

theorem intercalate_concat (hne : values ≠ []) (value : Text) :
    List.intercalate comma (values ++ [value]) = List.intercalate comma values ++ comma ++ value := by
  induction values with
  | nil => exact absurd rfl hne
  | cons v values ih =>
    cases values with
    | nil => simp [List.intercalate]
    | cons w values =>
      have h := ih (by simp)
      simp only [List.intercalate, cons_append, intersperse_cons_cons, flatten_cons] at h ⊢
      rw [h]
      simp

theorem write_values (hn : name ≠ setCookie) (hold : entriesOf data name = joined values) (c : Change) :
    entriesOf (c.write data) name = joined (valuesStep name values c) := by
  by_cases hc : toLowerCase c.name = name
  · subst hc
    unfold valuesStep
    rw [if_pos rfl]
    cases c with
    | append name value =>
      have hn : toLowerCase name ≠ setCookie := hn
      have hold : entriesOf data (toLowerCase name) = joined values := hold
      show entriesOf ((Change.append name value).write data) (toLowerCase name) = joined (values ++ [trimmed value])
      rw [entriesOf_append value hn, hold]
      by_cases hv : values = []
      · subst hv
        simp [joined, upsert, List.intercalate]
      · simp [joined, hv, upsert, intercalate_concat hv]
    | set name value =>
      have hn : toLowerCase name ≠ setCookie := hn
      have hold : entriesOf data (toLowerCase name) = joined values := hold
      show entriesOf ((Change.set name value).write data) (toLowerCase name) = joined [trimmed value]
      rw [entriesOf_set value hn, hold]
      by_cases hv : values = [] <;> simp [joined, hv, upsert, List.intercalate]
    | delete name => exact entriesOf_delete name data
  · unfold valuesStep
    rw [entriesOf_other hc, hold, if_neg hc]

theorem write_cookies (hold : entriesOf data setCookie = lastWins cookieKey values) (c : Change) :
    entriesOf (c.write data) setCookie = lastWins cookieKey (cookiesStep values c) := by
  by_cases hc : toLowerCase c.name = setCookie
  · unfold cookiesStep
    rw [if_pos hc]
    cases c with
    | append name value => rw [@entriesOf_appendCookie name value hc, hold, lastWins_concat]
    | set name value => rw [@entriesOf_setCookie name value hc, hold, lastWins_concat]
    | delete name =>
      have hnil := entriesOf_delete name data
      rwa [show toLowerCase name = setCookie from hc] at hnil
  · unfold cookiesStep
    rw [entriesOf_other hc, hold, if_neg hc]

theorem write_entries (hm : ∀ name, entriesOf data name = reported h name) (c : Change) (name : Text) :
    entriesOf (c.write data) name = reported (h ++ [c]) name := by
  have hold := hm name
  by_cases hn : name = setCookie
  · subst hn
    rw [reported, if_pos rfl] at hold
    rw [reported, if_pos rfl, foldl_append]
    exact write_cookies hold c
  · rw [reported, if_neg hn] at hold
    rw [reported, if_neg hn, foldl_append]
    exact write_values hn hold c

theorem write_described (hm : Models h data) (hc : c.legal = true) : Models (h ++ [c]) (c.write data) :=
  ⟨write_ok hm.ok hc, write_entries hm.entries c⟩

/-! ## Objects without a guard -/

theorem apply_none (c : Change) (data : HeaderList) : if c.legal then c.apply data .none = .ok (c.write data) else ∃ e, c.apply data .none = .error e := by
  split
  · next hc =>
    rw [apply_legal hc]
    cases c <;> rfl
  · next hc =>
    cases ha : c.apply data .none with
    | ok data' => exact absurd (apply_ok ha).1 hc
    | error e => exact ⟨e, rfl⟩

theorem appendAll_described (init : HeaderList) (hm : Models h data) :
    if (fills init).all Change.legal then ∃ data', Deep.appendAll init data = .ok data' ∧ Models (h ++ fills init) data'
    else ∃ e, Deep.appendAll init data = .error e := by
  induction init generalizing h data with
  | nil => exact ⟨data, rfl, by simpa [fills] using hm⟩
  | cons e init ih =>
    obtain ⟨name, value⟩ := e
    have happ := apply_none (.append name value) data
    have hcons : fills ((name, value) :: init) = .append name value :: fills init := rfl
    have hrest : Deep.appendAll ((name, value) :: init) data =
        (Change.append name value).apply data .none >>= fun data => Deep.appendAll init data := rfl
    rw [hcons, all_cons, hrest]
    by_cases hc : (Change.append name value).legal = true
    · rw [if_pos hc] at happ
      have hi := ih (write_described hm hc)
      rw [hc, Bool.true_and, happ]
      rwa [append_assoc, singleton_append] at hi
    · rw [if_neg hc] at happ
      obtain ⟨err, happ⟩ := happ
      rw [if_neg (by simp [hc]), happ]
      exact ⟨err, rfl⟩

structure AllModel (H : List (List Change)) (d : Deep) : Prop where
  length : H.length = d.lists.length
  models : ∀ (i : Nat) h data, H[i]? = some h → d.lists[i]? = some data → Models h data
  guards : ∀ g ∈ d.guards, g = .none

variable {H : List (List Change)} {d d' : Deep}

theorem AllModel.push (ha : AllModel H d) (hm : Models h data) (results : List Result) :
    AllModel (H ++ [h]) ⟨d.lists ++ [data], d.guards ++ [.none], results⟩ := by
  refine ⟨by simp [ha.length], fun i h' data' hi hd => ?_, fun g hg => ?_⟩
  · by_cases hlt : i < H.length
    · rw [getElem?_append_left hlt] at hi
      rw [getElem?_append_left (ha.length ▸ hlt)] at hd
      exact ha.models i h' data' hi hd
    · rw [getElem?_append_right (Nat.le_of_not_lt hlt)] at hi
      rw [getElem?_append_right (ha.length ▸ Nat.le_of_not_lt hlt), ← ha.length] at hd
      have hzero : i - H.length = 0 := by simpa using (List.getElem?_eq_some_iff.mp hi).1
      rw [hzero] at hi hd
      cases hi
      cases hd
      exact hm
  · rcases mem_append.mp hg with hg | hg
    · exact ha.guards g hg
    · exact mem_singleton.mp hg

variable {i : Nat}

theorem AllModel.change (ha : AllModel H d) (hs : d.write i c.apply = some d') : AllModel (recordChange H i c) d' := by
  unfold Deep.write at hs
  split at hs
  · next data guard hi hg =>
    have hguard := ha.guards guard (mem_of_getElem? hg)
    subst hguard
    have happ := apply_none c data
    unfold recordChange
    split
    · next hc =>
      rw [if_pos hc] at happ
      rw [happ] at hs
      cases hs
      refine ⟨by simp [ha.length], fun j h' data' hj hd => ?_, ha.guards⟩
      rw [getElem?_modify] at hj
      obtain ⟨hist, hhist, rfl⟩ := map_eq_some_iff.mp hj
      by_cases hij : i = j
      · subst hij
        have hlt : i < d.lists.length := (List.getElem?_eq_some_iff.mp hi).1
        rw [getElem?_set_self hlt] at hd
        cases hd
        rw [if_pos rfl]
        exact write_described (ha.models i hist data hhist hi) hc
      · rw [getElem?_set_ne hij] at hd
        rw [if_neg hij]
        exact ha.models j hist data' hhist hd
    · next hc =>
      rw [if_neg hc] at happ
      obtain ⟨e, happ⟩ := happ
      rw [happ] at hs
      cases hs
      exact ⟨ha.length, ha.models, ha.guards⟩
  · cases hs

theorem AllModel.query (ha : AllModel H d) {f : HeaderList → Result} (hs : d.query i f = some d') : AllModel H d' := by
  obtain ⟨data, -, rfl⟩ := map_eq_some_iff.mp hs
  exact ⟨ha.length, ha.models, ha.guards⟩

def Unguarded (_ : Deep) : Op → Prop
  | .guard _ g => g = .none
  | _ => True

theorem step_described (ha : AllModel H d) {op : Op} (hop : Unguarded d op) (hs : d.step op = some d') : AllModel (historyStep H op) d' := by
  cases op with
  | construct init =>
    have hfill := appendAll_described init models_nil
    rw [historyStep]
    simp only [Deep.step] at hs
    split at hfill
    · next hl =>
      obtain ⟨data, hdata, hm⟩ := hfill
      rw [hdata] at hs
      cases hs
      rw [if_pos hl]
      exact ha.push hm _
    · next hl =>
      obtain ⟨e, he⟩ := hfill
      rw [he] at hs
      cases hs
      rw [if_neg hl]
      exact ⟨ha.length, ha.models, ha.guards⟩
  | copy other =>
    obtain ⟨data, hdata, rfl⟩ := map_eq_some_iff.mp hs
    have hlt : other < H.length := ha.length ▸ (List.getElem?_eq_some_iff.mp hdata).1
    have hhist : H[other]? = some H[other] := getElem?_eq_getElem hlt
    rw [historyStep, hhist]
    exact ha.push (ha.models other _ data hhist hdata) _
  | append i name value => exact ha.change (c := .append name value) hs
  | set i name value => exact ha.change (c := .set name value) hs
  | delete i name => exact ha.change (c := .delete name) hs
  | get i name => exact ha.query hs
  | has i name => exact ha.query hs
  | entries i => exact ha.query hs
  | keys i => exact ha.query hs
  | values i => exact ha.query hs
  | guard i g =>
    cases hs
    refine ⟨ha.length, ha.models, fun g' hg' => ?_⟩
    rcases mem_or_eq_of_mem_set hg' with hg' | rfl
    · exact ha.guards g' hg'
    · exact hop

/-! ## Reports -/

/-- The object has the list of its history, and reports it. -/
structure Described (h : List Change) (s : State) (i : Nat) : Prop where
  name : ∀ e ∈ s.list i, legalName e.1 = true ∧ toLowerCase e.1 = e.1
  value : ∀ e ∈ s.list i, legalValue e.2 = true
  /-- at most one entry -/
  values : ∀ name ≠ setCookie, entriesOf (s.list i) name = joined (h.foldl (valuesStep name) [])
  cookies : entriesOf (s.list i) setCookie = lastWins cookieKey (h.foldl cookiesStep [])
  distinct : ((entriesOf (s.list i) setCookie).map cookieKey).Nodup
  get : ∀ name, legalName (toLowerCase name) = true →
    s.step (.get i name) = some { s with results := s.results ++ [.value (joined (entriesOf (s.list i) (toLowerCase name))).head?] }
  has : ∀ name, legalName (toLowerCase name) = true →
    s.step (.has i name) = some { s with results := s.results ++ [.bool (entriesOf (s.list i) (toLowerCase name) ≠ [])] }
  entries : s.step (.entries i) = some { s with results := s.results ++ [.entries (s.list i)] }
  keys : s.step (.keys i) = some { s with results := s.results ++ [.texts ((s.list i).map Prod.fst)] }
  valuesIterated : s.step (.values i) = some { s with results := s.results ++ [.texts ((s.list i).map Prod.snd)] }

/-- `dataGet` returns the one value, or the cookies joined. -/
theorem dataGet_eq (hone : name ≠ setCookie → (entriesOf data name).length ≤ 1) :
    dataGet data name = (joined (entriesOf data name)).head? := by
  unfold dataGet
  split
  · next hn =>
    rw [← entriesOf]
    cases entriesOf data name with
    | nil => rfl
    | cons v values => rfl
  · next hn =>
    have hfind : (data.find? (·.1 = name)).map Prod.snd = (entriesOf data name).head? := by
      rw [entriesOf, head?_map, head?_filter]
    have hlen := hone hn
    rw [hfind]
    match hv : entriesOf data name with
    | [] => rfl
    | [v] => simp [joined, List.intercalate]
    | v :: w :: values =>
      rw [hv] at hlen
      simp at hlen

theorem dataHas_eq (data : HeaderList) (name : Text) : dataHas data name = decide (entriesOf data name ≠ []) := by
  rw [Bool.eq_iff_iff, dataHas, List.any_eq_true, decide_eq_true_iff, entriesOf, ne_eq, map_eq_nil_iff, filter_eq_nil_iff]
  push Not
  rfl

theorem joined_length (values : List Text) : (joined values).length ≤ 1 := by
  unfold joined
  split <;> simp

theorem described_of_models {s : State} (hi : i < s.heap.owners.length) (hm : Models h (s.list i)) : Described h s i := by
  have howner : s.heap.owners[i]? = some s.heap.owners[i] := getElem?_eq_getElem hi
  have hlist : s.list i = s.heap.read s.heap.owners[i] := by
    rw [State.list, getD_eq_getElem?_getD, view_getElem? howner]
    rfl
  have hvalues : ∀ name ≠ setCookie, entriesOf (s.list i) name = joined (h.foldl (valuesStep name) []) := by
    intro name hn
    rw [hm.entries name, reported, if_neg hn]
  have hcookies : entriesOf (s.list i) setCookie = lastWins cookieKey (h.foldl cookiesStep []) := by
    rw [hm.entries setCookie, reported, if_pos rfl]
  have hquery : ∀ f, s.query i f = some { s with results := s.results ++ [f (s.list i)] } := by
    intro f
    rw [State.query, howner, hlist]
    rfl
  have hlegal : ∀ {name : Text}, legalName name = true → validateName name = .ok () := fun hn => if_pos hn
  refine ⟨hm.ok.name, hm.ok.value, hvalues, hcookies, ?_, fun name hn => ?_, fun name hn => ?_, hquery .entries, hquery fun data => .texts (data.map Prod.fst),
    hquery fun data => .texts (data.map Prod.snd)⟩
  · rw [hcookies, lastWins_keys]
    exact eraseDups_nodup _
  · refine (hquery _).trans ?_
    rw [getResult, hlegal hn]
    simp only
    rw [dataGet_eq fun hne => by rw [hvalues _ hne]; exact joined_length _]
  · refine (hquery _).trans ?_
    rw [hasResult, hlegal hn]
    simp only
    rw [dataHas_eq]

theorem lists_described {ops : List Op} {s : State} (hr : run State.step State.start ops = some s)
    (hguard : ∀ i g, Op.guard i g ∈ ops → g = .none) : ∀ i < s.heap.owners.length, Described ((histories ops).getD i []) s i := by
  have hd : run Deep.step Deep.start ops = some s.lists := by
    rw [← run_lists, hr, map_some]
  have hun : Along Deep.step Unguarded Deep.start ops := by
    refine (along_iff_forall (p := Unguarded Deep.start) hd).mpr fun op hop => ?_
    cases op with
    | guard i g => exact hguard i g hop
    | _ => trivial
  have hall : AllModel (histories ops) s.lists := by
    rw [← nil_append ops]
    refine run_history_along (J := fun d ops => AllModel (histories ops) d) (fun d ops op d' ha hq hs => ?_) ?_ hun hd
    · rw [histories, foldl_append]
      exact step_described ha hq hs
    · exact ⟨rfl, by simp [histories], by simp [Deep.start]⟩
  intro i hi
  have hlen : i < (histories ops).length := by
    rw [hall.length, lists_length]
    exact hi
  have hhist : (histories ops)[i]? = some ((histories ops).getD i []) := by
    rw [getD_eq_getElem?_getD, getElem?_eq_getElem hlen]
    rfl
  refine described_of_models hi (hall.models i _ _ hhist ?_)
  rw [lists_getElem?, State.list, getD_eq_getElem?_getD, view_getElem? (getElem?_eq_getElem hi), getElem?_eq_getElem hi]
  rfl

/-- A copy goes on alone; one cookie is replaced in it. -/
def cookieRun : List Op :=
  [.construct [("A".toList, "1".toList)], .append 0 "a".toList " 2".toList, .append 0 "Set-Cookie".toList "x=1".toList, .copy 0,
    .append 1 "set-cookie".toList "y=1".toList, .set 1 "set-cookie".toList "x=2".toList, .append 1 "b c".toList "1".toList, .delete 0 "a".toList]

theorem cookieRun_described : ∃ s, run State.step State.start cookieRun = some s ∧
    s.list 1 = [("a".toList, "1, 2".toList), ("set-cookie".toList, "x=2".toList), ("set-cookie".toList, "y=1".toList)] ∧
    ∀ i < s.heap.owners.length, Described ((histories cookieRun).getD i []) s i := by
  obtain ⟨s, hr, hlist⟩ : ∃ s, run State.step State.start cookieRun = some s ∧
      s.list 1 = [("a".toList, "1, 2".toList), ("set-cookie".toList, "x=2".toList), ("set-cookie".toList, "y=1".toList)] :=
    ⟨_, rfl, by decide⟩
  refine ⟨s, hr, hlist, lists_described hr fun i g hg => ?_⟩
  simp [cookieRun] at hg

end Aworker.Fetch.Shared
