/-
  Aworker.Fetch.SharedHeaders — `Headers` objects that share a list (lib/fetch/headers.js).

  `new Headers(other)` takes the array of `other` and clears `headersDataUnique` on it;
  `append`, `delete` and `set` give their object an array of its own first, unless the array
  is marked. The entries are arrays as well, and are written in place. Each object has a
  guard, which `Request`, `Response` and `Cache` assign.

  Main result: `results_deepCopies`.
-/

import Mathlib
import Aworker.Lib.CopyOnWrite
import Aworker.Lib.Run
import Aworker.Fetch.Headers

namespace Aworker.Fetch.Shared

open Aworker.Lib Aworker.Lib.CopyOnWrite

/-! ## Guards -/

inductive Guard where
  | none
  | immutable
  | request
  | requestNoCors
  | response
  deriving DecidableEq

def forbiddenRequestHeaders : List Text :=
  ["accept-charset", "accept-encoding", "access-control-request-headers", "access-control-request-method", "connection",
    "content-length", "cookie", "cookie2", "date", "dnt", "expect", "host", "keep-alive", "origin", "referer", "te", "trailer",
    "transfer-encoding", "upgrade", "via"].map String.toList

def forbiddenRequestHeaderPrefixes : List Text := ["proxy-", "sec-"].map String.toList

def noCorsSafeListedRequestHeaders : List Text :=
  ["accept", "accept-language", "content-language", "content-type"].map String.toList

def forbiddenResponseHeaders : List Text := ["set-cookie", "set-cookie2"].map String.toList

def privilegedNoCorsRequestHeaderName : List Text := ["range"].map String.toList

def corsUnsafeHeaderBytes : List Nat := [0x22, 0x28, 0x29, 0x3a, 0x3c, 0x3e, 0x3f, 0x40, 0x5b, 0x5c, 0x5d, 0x7b, 0x7d, 0x7f]

def languageSafeChars : List Nat := [0x20, 0x2a, 0x2c, 0x2d, 0x2e, 0x3b, 0x3d]

def isForbiddenRequestHeaderName (name : Text) : Bool :=
  forbiddenRequestHeaders.contains name || forbiddenRequestHeaderPrefixes.any fun p => p.isPrefixOf name

def isForbiddenResponseHeaderName (name : Text) : Bool := forbiddenResponseHeaders.contains name

def isCorsUnsafeRequestHeaderByte (value : Text) : Bool :=
  value.any fun c => (c.toNat < 0x20 && c.toNat != 0x09) || corsUnsafeHeaderBytes.contains c.toNat

def isLanguageSafe (c : Char) : Bool :=
  (0x30 ≤ c.toNat && c.toNat ≤ 0x39) || (0x41 ≤ c.toNat && c.toNat ≤ 0x5a) || (0x61 ≤ c.toNat && c.toNat ≤ 0x7a) ||
    languageSafeChars.contains c.toNat

/-- The names that the `switch` inspects are safe without it. -/
def isNoCorsSafeListedRequestHeader (name : Text) (value : Option Text) : Bool :=
  if noCorsSafeListedRequestHeaders.contains name then true
  else match value with
    | .none => false
    | .some value =>
      if name = "accept".toList then !isCorsUnsafeRequestHeaderByte value
      else if name = "accept-language".toList ∨ name = "content-language".toList then value.all isLanguageSafe
      else true

/-! ## Lists -/

/-- What `dataAppend` makes of an entry. -/
def appendTo (key value : Text) (entry : Text × Text) : Option (Text × Text) :=
  if key = setCookie ∧ entry.1 = setCookie then
    if cookieKey entry.2 = cookieKey value then some (entry.1, value) else none
  else if entry.1 = key then some (entry.1, entry.2 ++ ", ".toList ++ value)
  else none

/-- What `dataSet` makes of an entry. -/
def setTo (key value : Text) (entry : Text × Text) : Option (Text × Text) :=
  if entry.1 = key then
    if key = setCookie then
      if cookieKey value = cookieKey entry.2 then some (entry.1, value) else none
    else some (entry.1, value)
  else none

def dataSet (data : HeaderList) (key value : Text) : HeaderList := upsert (setTo key value) (key, value) data

def notPrivileged (entry : Text × Text) : Bool := !privilegedNoCorsRequestHeaderName.contains entry.1

def validateValue (value : Text) : Except JsError Unit :=
  if legalValue value then .ok () else .error (.typeError (value ++ " is not a legal HTTP header value".toList))

variable {key : Text}

theorem setTo_eq_some {value : Text} {e e' : Text × Text} (h : setTo key value e = some e') : e.1 = key ∧ e' = (key, value) := by
  unfold setTo at h
  split at h
  · rename_i hkey
    split at h
    · split at h
      · exact ⟨hkey, (Option.some.inj h).symm.trans (by rw [hkey])⟩
      · cases h
    · exact ⟨hkey, (Option.some.inj h).symm.trans (by rw [hkey])⟩
  · cases h

theorem dataGet_dataSet (hkey : key ≠ setCookie) (data : HeaderList) (k v : Text) :
    dataGet (dataSet data k v) key = if k = key then some v else dataGet data key := by
  simp only [dataGet, hkey, if_false]
  induction data with
  | nil => by_cases hk : k = key <;> simp [dataSet, upsert, hk]
  | cons e data ih =>
    simp only [dataSet, upsert] at ih ⊢
    cases hset : setTo k v e with
    | some e' =>
      obtain ⟨hek, rfl⟩ := setTo_eq_some hset
      by_cases hk : k = key <;> simp [hk, hek]
    | none =>
      by_cases hek : e.1 = key
      · -- only a cookie is passed over by its own name
        have hk : k ≠ key := by
          rintro rfl
          simp [setTo, hek, hkey] at hset
        simp [hek, hk]
      · simp [hek, ih]

/-- The array and its entries are those of `dataAppend` on lists. -/
theorem upsert_appendTo (key value : Text) (data : HeaderList) : upsert (appendTo key value) (key, value) data = dataAppend data key value := by
  induction data with
  | nil => rfl
  | cons entry data ih =>
    obtain ⟨dataKey, dataValue⟩ := entry
    simp only [upsert, dataAppend, appendTo]
    by_cases hcookie : key = setCookie ∧ dataKey = setCookie
    · simp only [if_pos hcookie]
      by_cases hkey : cookieKey dataValue = cookieKey value
      · simp only [if_pos hkey]
      · simp only [if_neg hkey, ih]
    · simp only [if_neg hcookie]
      by_cases hkey : dataKey = key
      · simp only [if_pos hkey]
      · simp only [if_neg hkey, ih]

/-! ## What a guard keeps out -/

def refusesAppend (name value : Text) (guard : Guard) (data : HeaderList) : Bool :=
  match guard with
  | .request => isForbiddenRequestHeaderName name
  | .requestNoCors =>
    let temporaryValue := match dataGet data name with
      | .none => value
      | .some old => old ++ ", ".toList ++ value
    !isNoCorsSafeListedRequestHeader name (some temporaryValue)
  | .response => isForbiddenResponseHeaderName name
  | _ => false

def refusesDelete (name : Text) (guard : Guard) (_ : HeaderList) : Bool :=
  match guard with
  | .request => isForbiddenRequestHeaderName name
  | .requestNoCors => !isNoCorsSafeListedRequestHeader name .none || !privilegedNoCorsRequestHeaderName.contains name
  | .response => isForbiddenResponseHeaderName name
  | _ => false

def refusesSet (name value : Text) (guard : Guard) (_ : HeaderList) : Bool :=
  match guard with
  | .request => isForbiddenRequestHeaderName name
  | .requestNoCors => !isNoCorsSafeListedRequestHeader name (some value)
  | .response => isForbiddenResponseHeaderName name
  | _ => false

def immutableError : JsError := .typeError "Headers object is immutable".toList

/-! ## Objects that share arrays -/

abbrev Heap := CopyOnWrite.Heap (Text × Text)

/-- `this[headersData]` -/
def headersData (h : Heap) (i : Nat) : Nat := h.owners.getD i 0

def copyOnWriteHeaderData (h : Heap) (i : Nat) : Heap := (h.own i (headersData h i)).1

/-- What `append`, `delete` and `set` do after their checks. -/
def mutate (refuses : Guard → HeaderList → Bool) (write : Heap → Nat → Heap) (h : Heap) (i : Nat) (guard : Guard) : Except JsError Heap :=
  if guard = .immutable then .error immutableError
  else
    let h := copyOnWriteHeaderData h i
    let data := headersData h i
    if refuses guard (h.read data) then .ok h
    else
      let h := write h data
      .ok (if guard = .requestNoCors then h.keep data notPrivileged else h)

def append (name value : Text) (h : Heap) (i : Nat) (guard : Guard) : Except JsError Heap := do
  let newname := toLowerCase name
  let newvalue := trimmed value
  validateName newname
  validateValue newvalue
  mutate (refusesAppend name value) (fun h data => h.upsert data (appendTo newname newvalue) (newname, newvalue)) h i guard

def delete (name : Text) (h : Heap) (i : Nat) (guard : Guard) : Except JsError Heap := do
  let newname := toLowerCase name
  validateName newname
  mutate (refusesDelete name) (fun h data => h.keep data fun entry => entry.1 ≠ newname) h i guard

def set (name value : Text) (h : Heap) (i : Nat) (guard : Guard) : Except JsError Heap := do
  let newname := toLowerCase name
  let newvalue := trimmed value
  validateName newname
  validateValue newvalue
  mutate (refusesSet name value) (fun h data => h.upsert data (setTo newname newvalue) (newname, newvalue)) h i guard

def appendAll (i : Nat) : HeaderList → Heap → Except JsError Heap
  | [], h => .ok h
  | (name, value) :: init, h => do
    -- the guard is assigned at the end of the constructor
    let h ← append name value h i .none
    appendAll i init h

def construct (init : HeaderList) (h : Heap) : Except JsError Heap := appendAll h.owners.length init h.create

/-! ## Operations and their results -/

inductive Op where
  /-- `new Headers(init)`, without or with tuples -/
  | construct (init : HeaderList)
  /-- `new Headers(other)` -/
  | copy (other : Nat)
  | append (i : Nat) (name value : Text)
  | delete (i : Nat) (name : Text)
  | set (i : Nat) (name value : Text)
  | get (i : Nat) (name : Text)
  | has (i : Nat) (name : Text)
  /-- `entries`, the iterator itself and `forEach` -/
  | entries (i : Nat)
  | keys (i : Nat)
  | values (i : Nat)
  /-- `headers[headersGuardKey] = guard` -/
  | guard (i : Nat) (guard : Guard)

inductive Result where
  | undefined
  | object (i : Nat)
  | value (v : Option Text)
  | bool (b : Bool)
  | entries (l : HeaderList)
  | texts (l : List Text)
  | thrown (e : JsError)
  deriving DecidableEq

def getResult (name : Text) (data : HeaderList) : Result :=
  match validateName (toLowerCase name) with
  | .error e => .thrown e
  | .ok () => .value (dataGet data (toLowerCase name))

def hasResult (name : Text) (data : HeaderList) : Result :=
  match validateName (toLowerCase name) with
  | .error e => .thrown e
  | .ok () => .bool (dataHas data (toLowerCase name))

structure State where
  heap : Heap
  guards : List Guard
  results : List Result

namespace State

def start : State := ⟨Heap.empty, [], []⟩

def write (s : State) (i : Nat) (f : Heap → Nat → Guard → Except JsError Heap) : Option State :=
  match s.heap.owners[i]?, s.guards[i]? with
  | some _, some guard => some <| match f s.heap i guard with
    | .ok h => { s with heap := h, results := s.results ++ [.undefined] }
    | .error e => { s with results := s.results ++ [.thrown e] }
  | _, _ => none

def query (s : State) (i : Nat) (f : HeaderList → Result) : Option State :=
  (s.heap.owners[i]?).map fun data => { s with results := s.results ++ [f (s.heap.read data)] }

def step (s : State) : Op → Option State
  | .construct init => some <| match Shared.construct init s.heap with
    | .ok h => ⟨h, s.guards ++ [.none], s.results ++ [.object s.heap.owners.length]⟩
    | .error e => { s with results := s.results ++ [.thrown e] }
  | .copy other => (s.heap.owners[other]?).map fun data =>
    ⟨s.heap.share data, s.guards ++ [.none], s.results ++ [.object s.heap.owners.length]⟩
  | .append i name value => s.write i (Shared.append name value)
  | .delete i name => s.write i (Shared.delete name)
  | .set i name value => s.write i (Shared.set name value)
  | .get i name => s.query i (getResult name)
  | .has i name => s.query i (hasResult name)
  | .entries i => s.query i .entries
  | .keys i => s.query i fun data => .texts (data.map Prod.fst)
  | .values i => s.query i fun data => .texts (data.map Prod.snd)
  | .guard i guard => some { s with guards := s.guards.set i guard, results := s.results ++ [.undefined] }

end State

/-! ## Objects with a list each -/

structure Deep where
  lists : List HeaderList
  guards : List Guard
  results : List Result

namespace Deep

def start : Deep := ⟨[], [], []⟩

def mutate (refuses : Guard → HeaderList → Bool) (write : HeaderList → HeaderList) (data : HeaderList) (guard : Guard) : Except JsError HeaderList :=
  if guard = .immutable then .error immutableError
  else if refuses guard data then .ok data
  else .ok (if guard = .requestNoCors then (write data).filter notPrivileged else write data)

def append (name value : Text) (data : HeaderList) (guard : Guard) : Except JsError HeaderList := do
  validateName (toLowerCase name)
  validateValue (trimmed value)
  mutate (refusesAppend name value) (fun data => dataAppend data (toLowerCase name) (trimmed value)) data guard

def delete (name : Text) (data : HeaderList) (guard : Guard) : Except JsError HeaderList := do
  validateName (toLowerCase name)
  mutate (refusesDelete name) (fun data => dataDelete data (toLowerCase name)) data guard

def set (name value : Text) (data : HeaderList) (guard : Guard) : Except JsError HeaderList := do
  validateName (toLowerCase name)
  validateValue (trimmed value)
  mutate (refusesSet name value) (fun data => dataSet data (toLowerCase name) (trimmed value)) data guard

def appendAll : HeaderList → HeaderList → Except JsError HeaderList
  | [], data => .ok data
  | (name, value) :: init, data => do
    let data ← append name value data .none
    appendAll init data

def write (d : Deep) (i : Nat) (f : HeaderList → Guard → Except JsError HeaderList) : Option Deep :=
  match d.lists[i]?, d.guards[i]? with
  | some data, some guard => some <| match f data guard with
    | .ok data => { d with lists := d.lists.set i data, results := d.results ++ [.undefined] }
    | .error e => { d with results := d.results ++ [.thrown e] }
  | _, _ => none

def query (d : Deep) (i : Nat) (f : HeaderList → Result) : Option Deep :=
  (d.lists[i]?).map fun data => { d with results := d.results ++ [f data] }

def step (d : Deep) : Op → Option Deep
  | .construct init => some <| match appendAll init [] with
    | .ok data => ⟨d.lists ++ [data], d.guards ++ [.none], d.results ++ [.object d.lists.length]⟩
    | .error e => { d with results := d.results ++ [.thrown e] }
  | .copy other => (d.lists[other]?).map fun data => ⟨d.lists ++ [data], d.guards ++ [.none], d.results ++ [.object d.lists.length]⟩
  | .append i name value => d.write i (Deep.append name value)
  | .delete i name => d.write i (Deep.delete name)
  | .set i name value => d.write i (Deep.set name value)
  | .get i name => d.query i (getResult name)
  | .has i name => d.query i (hasResult name)
  | .entries i => d.query i .entries
  | .keys i => d.query i fun data => .texts (data.map Prod.fst)
  | .values i => d.query i fun data => .texts (data.map Prod.snd)
  | .guard i guard => some { d with guards := d.guards.set i guard, results := d.results ++ [.undefined] }

end Deep

/-! ## A write is a write to one list -/

variable {h : Heap} {i data : Nat}

theorem headersData_eq (hi : h.owners[i]? = some data) : headersData h i = data := by
  rw [headersData, List.getD_eq_getElem?_getD, hi, Option.getD_some]

/-- The shared objects after a write of `i`, and the list that `i` then has; or both throw. -/
inductive Matches (h : Heap) (i : Nat) : Except JsError Heap → Except JsError HeaderList → Prop
  | ok {h' : Heap} {l : HeaderList} (hs : Separated h') (hview : h'.view = h.view.set i l) : Matches h i (.ok h') (.ok l)
  | error (e : JsError) : Matches h i (.error e) (.error e)

theorem Matches.after_check {r : Except JsError Heap} {r' : Except JsError HeaderList} (m : Matches h i r r') (check : Except JsError Unit) :
    Matches h i (check >>= fun _ => r) (check >>= fun _ => r') := by
  cases check with
  | error e => exact Matches.error e
  | ok _ => exact m

/-- One lemma for `append`, `delete` and `set`: only the write differs. -/
theorem mutate_matches {write : Heap → Nat → Heap} {f : HeaderList → HeaderList} (refuses : Guard → HeaderList → Bool)
    (hwrite : ∀ h data, Separated h → data < h.arrayCount → Mutation h data f (write h data)) (hs : Separated h)
    (hi : h.owners[i]? = some data) (guard : Guard) : Matches h i (mutate refuses write h i guard) (Deep.mutate refuses f (h.read data) guard) := by
  have hown : Owned h i (copyOnWriteHeaderData h i) (h.own i data).2 := by
    have ho := own_spec hs hi
    rwa [copyOnWriteHeaderData, headersData_eq hi]
  generalize (h.own i data).2 = own at hown
  generalize hh : copyOnWriteHeaderData h i = h1 at hown
  have hread : h1.read own = h.read data := by
    have he := view_getElem? hown.owner
    rw [hown.view, view_getElem? hi] at he
    exact (Option.some.inj he).symm
  have hlt : own < h1.arrayCount := hown.separated.lt_of_owner hown.owner
  -- what a write to the object's own array is for the lists
  have hok {g : HeaderList → HeaderList} {h2 : Heap} (m : Mutation h1 own g h2) : Matches h i (.ok h2) (.ok (g (h.read data))) := by
    refine Matches.ok m.separated ?_
    rw [view_mutation hown.separated hown.owner hown.marked m, hown.view, hread]
  unfold mutate Deep.mutate
  simp only [hh, headersData_eq hown.owner, hread]
  split
  · exact Matches.error _
  · split
    · exact hok (Mutation.refl hown.separated own)
    · have m := hwrite h1 own hown.separated hlt
      split
      · exact hok (m.trans (keep_mutation m.separated own notPrivileged))
      · exact hok m

theorem append_matches (name value : Text) (hs : Separated h) (hi : h.owners[i]? = some data) (guard : Guard) :
    Matches h i (append name value h i guard) (Deep.append name value (h.read data) guard) := by
  refine Matches.after_check (Matches.after_check (mutate_matches _ (fun h data hs hlt => ?_) hs hi guard) _) _
  have m := upsert_mutation hs hlt (appendTo (toLowerCase name) (trimmed value)) (toLowerCase name, trimmed value)
  rwa [funext (upsert_appendTo (toLowerCase name) (trimmed value))] at m

theorem delete_matches (name : Text) (hs : Separated h) (hi : h.owners[i]? = some data) (guard : Guard) :
    Matches h i (delete name h i guard) (Deep.delete name (h.read data) guard) :=
  Matches.after_check (mutate_matches _ (fun _ data hs _ => keep_mutation hs data _) hs hi guard) _

theorem set_matches (name value : Text) (hs : Separated h) (hi : h.owners[i]? = some data) (guard : Guard) :
    Matches h i (set name value h i guard) (Deep.set name value (h.read data) guard) :=
  Matches.after_check (Matches.after_check (mutate_matches _ (fun _ _ hs hlt => upsert_mutation hs hlt _ _) hs hi guard) _) _

theorem view_set_self (hi : h.owners[i]? = some data) : h.view.set i (h.read data) = h.view := by
  obtain ⟨hlt, hget⟩ := List.getElem?_eq_some_iff.mp (view_getElem? hi)
  rw [← hget, List.set_getElem_self]

theorem appendAll_matches (init : HeaderList) (hs : Separated h) (hi : h.owners[i]? = some data) :
    Matches h i (appendAll i init h) (Deep.appendAll init (h.read data)) := by
  induction init generalizing h data with
  | nil => exact Matches.ok hs (view_set_self hi).symm
  | cons entry init ih =>
    obtain ⟨name, value⟩ := entry
    have hm := append_matches name value hs hi .none
    have hlen : i < h.view.length := (List.getElem?_eq_some_iff.mp (view_getElem? hi)).1
    unfold appendAll Deep.appendAll
    generalize append name value h i .none = r, Deep.append name value (h.read data) .none = r' at hm ⊢
    cases hm with
    | error e => exact Matches.error e
    | @ok h1 l hs1 hview =>
      -- the object's array may be another one now, with the list that there should be
      have hl : h1.view[i]? = some l := by rw [hview, List.getElem?_set_self hlen]
      rw [CopyOnWrite.Heap.view, List.getElem?_map, Option.map_eq_some_iff] at hl
      obtain ⟨data1, hi1, hread1⟩ := hl
      have hm := ih hs1 hi1
      rw [hread1] at hm
      show Matches h i (appendAll i init h1) (Deep.appendAll init l)
      generalize appendAll i init h1 = r, Deep.appendAll init l = r' at hm ⊢
      cases hm with
      | error e => exact Matches.error e
      | ok hs2 hview2 =>
        refine Matches.ok hs2 ?_
        rw [hview2, hview, List.set_set]

/-! ## The operations -/

def State.lists (s : State) : Deep := ⟨s.heap.view, s.guards, s.results⟩

variable {s s' : State}

theorem lists_getElem? (s : State) (i : Nat) : s.lists.lists[i]? = (s.heap.owners[i]?).map s.heap.read := List.getElem?_map ..

theorem lists_length (s : State) : s.lists.lists.length = s.heap.owners.length := List.length_map ..

theorem write_lists {f : Heap → Nat → Guard → Except JsError Heap} {g : HeaderList → Guard → Except JsError HeaderList}
    (hf : ∀ {h : Heap} {i data : Nat}, Separated h → h.owners[i]? = some data → ∀ guard, Matches h i (f h i guard) (g (h.read data) guard))
    (hs : Separated s.heap) (i : Nat) : (s.write i f).map State.lists = s.lists.write i g ∧ ∀ s', s.write i f = some s' → Separated s'.heap := by
  unfold State.write Deep.write
  rw [lists_getElem?, State.lists]
  cases hi : s.heap.owners[i]? with
  | none => exact ⟨rfl, by simp⟩
  | some data =>
    cases hg : s.guards[i]? with
    | none => exact ⟨rfl, by simp⟩
    | some guard =>
      have hm := hf hs hi guard
      simp only [Option.map_some]
      generalize f s.heap i guard = r, g (s.heap.read data) guard = r' at hm ⊢
      cases hm with
      | error e =>
        refine ⟨rfl, fun s' he => ?_⟩
        cases he
        exact hs
      | ok hs' hview =>
        refine ⟨?_, fun s' he => ?_⟩
        · show some (Deep.mk _ _ _) = some (Deep.mk _ _ _)
          rw [hview]
        · cases he
          exact hs'

theorem query_lists (f : HeaderList → Result) (hs : Separated s.heap) (i : Nat) :
    (s.query i f).map State.lists = s.lists.query i f ∧ ∀ s', s.query i f = some s' → Separated s'.heap := by
  unfold State.query Deep.query
  rw [lists_getElem?]
  cases s.heap.owners[i]? with
  | none => exact ⟨rfl, by simp⟩
  | some data =>
    refine ⟨rfl, fun s' he => ?_⟩
    cases he
    exact hs

theorem construct_spec (init : HeaderList) (hs : Separated h) :
    (∃ h' l, construct init h = .ok h' ∧ Deep.appendAll init [] = .ok l ∧ Separated h' ∧ h'.view = h.view ++ [l]) ∨
      ∃ e, construct init h = .error e ∧ Deep.appendAll init [] = .error e := by
  have hlast : h.create.owners[h.owners.length]? = some h.arrayCount := List.getElem?_concat_length ..
  have hm := appendAll_matches init (create_separated hs) hlast
  have hread : h.create.read h.arrayCount = [] := install_read_new (dup_nil h)
  rw [hread] at hm
  unfold construct
  generalize appendAll h.owners.length init h.create = r, Deep.appendAll init [] = r' at hm ⊢
  cases hm with
  | error e => exact Or.inr ⟨e, rfl, rfl⟩
  | @ok h' l hs' hview =>
    refine Or.inl ⟨h', l, rfl, rfl, hs', ?_⟩
    have hlen : h.view.length = h.owners.length := List.length_map ..
    rw [hview, create_view hs, List.set_append_right _ _ hlen.le, hlen, Nat.sub_self]
    rfl

theorem construct_lists (init : HeaderList) (hs : Separated s.heap) :
    (s.step (.construct init)).map State.lists = s.lists.step (.construct init) ∧ ∀ s', s.step (.construct init) = some s' → Separated s'.heap := by
  unfold State.step Deep.step
  simp only [lists_length]
  rcases construct_spec init hs with ⟨h', l, hc, ha, hs', hview⟩ | ⟨e, hc, ha⟩
  · rw [hc, ha]
    refine ⟨?_, fun s' he => ?_⟩
    · show some (Deep.mk _ _ _) = some (Deep.mk _ _ _)
      rw [hview]
      rfl
    · cases he
      exact hs'
  · rw [hc, ha]
    refine ⟨rfl, fun s' he => ?_⟩
    cases he
    exact hs

theorem copy_lists (other : Nat) (hs : Separated s.heap) :
    (s.step (.copy other)).map State.lists = s.lists.step (.copy other) ∧ ∀ s', s.step (.copy other) = some s' → Separated s'.heap := by
  unfold State.step Deep.step
  simp only [lists_getElem?, lists_length]
  cases ho : s.heap.owners[other]? with
  | none => exact ⟨rfl, by simp⟩
  | some data =>
    refine ⟨?_, fun s' he => ?_⟩
    · show some (Deep.mk _ _ _) = some (Deep.mk _ _ _)
      rw [share_view]
      rfl
    · cases he
      exact share_separated hs (hs.lt_of_owner ho)

/-- Seen as lists, the shared objects do what the objects with lists do. -/
theorem step_lists (hs : Separated s.heap) (op : Op) :
    (s.step op).map State.lists = s.lists.step op ∧ ∀ s', s.step op = some s' → Separated s'.heap := by
  cases op with
  | construct init => exact construct_lists init hs
  | copy other => exact copy_lists other hs
  | append i name value => exact write_lists (append_matches name value) hs i
  | delete i name => exact write_lists (delete_matches name) hs i
  | set i name value => exact write_lists (set_matches name value) hs i
  | get i name => exact query_lists (getResult name) hs i
  | has i name => exact query_lists (hasResult name) hs i
  | entries i => exact query_lists Result.entries hs i
  | keys i => exact query_lists (fun data => .texts (data.map Prod.fst)) hs i
  | values i => exact query_lists (fun data => .texts (data.map Prod.snd)) hs i
  | guard i guard =>
    refine ⟨rfl, fun s' he => ?_⟩
    cases he
    exact hs

theorem run_lists (ops : List Op) : (run State.step State.start ops).map State.lists = run Deep.step Deep.start ops :=
  run_map (I := fun s => Separated s.heap) (fun _ op s' hs he => (step_lists hs op).2 s' he) (fun _ op hs => (step_lists hs op).1)
    empty_separated ops

/-- The results are those of objects that are copied when they are constructed. -/
theorem results_deepCopies (ops : List Op) :
    (run State.step State.start ops).map State.results = (run Deep.step Deep.start ops).map Deep.results := by
  rw [← run_lists, Option.map_map]
  rfl

end Aworker.Fetch.Shared
