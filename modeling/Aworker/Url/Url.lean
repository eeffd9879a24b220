/-
  Aworker.Url.Url — `URL` and its `searchParams` (lib/url/url.js, src/binding/url.cc).

  A URL object holds the components of a URL as strings, and a list of parameters. An assignment
  gives the `href` and the value to ada, which parses, sets and hands back all components; the
  list is then parsed from the new `search`. A change to the list is serialized and assigned to
  `search` in the same way, and the list stays. Ada is a parameter (`Ada`) with what the URL
  standard says of it. So is the length of the engine's strings: a component that is longer
  makes the binding return `undefined`, which the object keeps.

  (1) `url_synced`: after any assignments and changes, whether they throw or not, the list is
      the one that `search` parses to, if no component has become too long (`Fits`); and a change
      of the list changes no component but `search` and `href`, unless it takes the last
      parameter from a URL with an opaque path that ends with a space, as the standard has it
      (`KeepsPath`).
  Trace: `url_lost`.
-/

import Mathlib
import Aworker.Lib.Run
import Aworker.Lib.Utf8
import Aworker.Url.SearchParams

namespace Aworker.Url

open Aworker.Lib List Option

abbrev Text := List Char

/-! ## Ada -/

inductive Component where
  | origin
  | protocol
  | username
  | password
  | host
  | hostname
  | port
  | pathname
  | search
  | hash
  | href
  deriving DecidableEq

inductive Property where
  | protocol
  | username
  | password
  | port
  | hash
  | host
  | hostname
  | href
  | pathname
  | search
  deriving DecidableEq

/-- The setters that cannot refuse a value. -/
def Property.isVoid : Property → Bool
  | .hash | .search => true
  | _ => false

/-- `ada::url`, and `kMaxLength` of the engine's strings. -/
structure Ada where
  Parsed : Type
  parse : Bytes → Option Parsed → Option Parsed
  get : Component → Parsed → Bytes
  set : Property → Parsed → Bytes → Parsed × Bool
  /-- an opaque path, and no fragment -/
  strips : Parsed → Bool
  maxLength : Nat
  utf8 : ∀ c u, ∃ text, Utf8.encode text = get c u
  reparse : ∀ u, ∃ u', parse (get .href u) none = some u' ∧ ∀ c, get c u' = get c u
  set_search : ∀ u q, (∀ b ∈ q, queryOctet b) → get .search (set .search u q).1 = if q = [] then [] else questionMark :: q
  set_search_other : ∀ u q c, (∀ b ∈ q, queryOctet b) → c ≠ .search → c ≠ .href → c ≠ .pathname → get c (set .search u q).1 = get c u
  set_search_pathname : ∀ u q, (∀ b ∈ q, queryOctet b) →
    get .pathname (set .search u q).1 = if q = [] ∧ strips u then (get .pathname u).rdropWhile (· = space) else get .pathname u
  maxLength_lt : maxLength < 2 ^ 31

/-! ## The binding -/

variable (A : Ada)

inductive Thrown where
  /-- TypeError `Invalid URL` -/
  | invalidUrl
  /-- TypeError `Invalid base URL` -/
  | invalidBaseUrl
  /-- TypeError `Invalid URL update` -/
  | invalidUrlUpdate
  /-- TypeError of a property read of `undefined` -/
  | undefinedRead

abbrev Components := Component → Text

def Component.all : List Component :=
  [.origin, .protocol, .username, .password, .host, .hostname, .port, .pathname, .search, .hash, .href]

def strings (u : A.Parsed) : Components := fun c => Utf8.decode (A.get c u)

/-- The components as strings; `none` is `undefined`. -/
def toV8 (u : A.Parsed) : Option Components :=
  if Component.all.all fun c => (A.get c u).length ≤ A.maxLength then some (strings A u) else none

def updateUrl (p : Property) (href value : Text) : Except Thrown (Option Components) :=
  match A.parse (Utf8.encode href) none with
  | none => .error .invalidUrl
  | some u =>
    if (A.set p u (Utf8.encode value)).2 || p.isVoid then .ok (toV8 A (A.set p u (Utf8.encode value)).1)
    else .error .invalidUrlUpdate

def parseUrl (url : Text) (base : Option Text) : Except Thrown (Option Components) :=
  let parsed (base : Option A.Parsed) : Except Thrown (Option Components) :=
    match A.parse (Utf8.encode url) base with
    | none => .error .invalidUrl
    | some u => .ok (toV8 A u)
  match base with
  | none => parsed none
  | some base =>
    match A.parse (Utf8.encode base) none with
    | none => .error .invalidBaseUrl
    | some base => parsed (some base)

abbrev ParamList := List (Text × Text)

def encodeEntries (list : ParamList) : List ParamEntry := list.map fun e => (Utf8.encode e.1, Utf8.encode e.2)

def parseSearchParams (search : Text) : ParamList :=
  (parse (Utf8.encode search)).map fun e => (Utf8.decode e.1, Utf8.decode e.2)

/-- `none`: the process aborts over a string that is too long. -/
def serializeSearchParams (list : ParamList) : Option Text :=
  if (toString (encodeEntries list)).length ≤ A.maxLength then some (Utf8.decode (toString (encodeEntries list))) else none

/-! ## The objects -/

structure UrlObject where
  /-- `kURLUrl`; `none` is `undefined` -/
  url : Option Components
  /-- `kURLSearchParamsList` of `searchParams` -/
  list : ParamList
  /-- what the last call threw -/
  thrown : Option Thrown := none

def construct (url : Text) (base : Option Text) : Option UrlObject :=
  match parseUrl A url base with
  | .ok (some c) => some { url := some c, list := parseSearchParams (c .search) }
  | _ => none

/-- The setters: `this[kURLUrl] = updateHash(this[kURLUrl].href, value)` and the like. -/
def assign (s : UrlObject) (p : Property) (value : Text) : UrlObject :=
  match s.url with
  | none => { s with thrown := some .undefinedRead }
  | some c =>
    match updateUrl A p (c .href) value with
    | .error e => { s with thrown := some e }
    | .ok none => { s with url := none, thrown := some .undefinedRead }
    | .ok (some c') => { url := some c', list := parseSearchParams (c' .search), thrown := none }

def updateURLSearch (s : UrlObject) (search : Text) : UrlObject :=
  match s.url with
  | none => { s with thrown := some .undefinedRead }
  | some c =>
    match updateUrl A .search (c .href) search with
    | .error e => { s with thrown := some e }
    | .ok c' => { s with url := c', thrown := none }

inductive Mutation where
  | append (name value : Text)
  | delete (name : Text)
  | set (name value : Text)
  | sort

/-- The loop of `set`: the first entry of the name gets the value, further ones go. -/
def setLoop (name value : Text) : Bool → ParamList → ParamList
  | found, [] => if found then [] else [(name, value)]
  | found, e :: list =>
    if e.1 ≠ name then e :: setLoop name value found list
    else if found then setLoop name value found list
    else (e.1, value) :: setLoop name value true list

/-- Strings are compared by their UTF-16 units. -/
def leUnits (a b : Text) : Bool := decide ¬b.flatMap Utf8.units < a.flatMap Utf8.units

def Mutation.apply (list : ParamList) : Mutation → ParamList
  | .append name value => list ++ [(name, value)]
  | .delete name => list.filter (·.1 ≠ name)
  | .set name value => setLoop name value false list
  | .sort => list.mergeSort fun a b => leUnits a.1 b.1

def mutate (s : UrlObject) (m : Mutation) : Option UrlObject :=
  (serializeSearchParams A (m.apply s.list)).map fun search => updateURLSearch A { s with list := m.apply s.list } search

inductive Ev where
  | assign (p : Property) (value : Text)
  | mutate (m : Mutation)

def step (s : UrlObject) : Ev → Option UrlObject
  | .assign p value => some (assign A s p value)
  | .mutate m => mutate A s m

/-! ## What may not happen -/

/-- The setter that a step calls, and the octets it gives it. -/
def Ev.call (s : UrlObject) : Ev → Property × Bytes
  | .assign p value => (p, Utf8.encode value)
  | .mutate m => (.search, toString (encodeEntries (m.apply s.list)))

/-- No component of the URL that a step makes is too long for a string. -/
def Fits (s : UrlObject) (e : Ev) : Prop :=
  ∀ c, s.url = some c → ∀ u, A.parse (Utf8.encode (c .href)) none = some u →
    ∀ k, (A.get k (A.set (e.call s).1 u (e.call s).2).1).length ≤ A.maxLength

/-- The last parameter is not taken from an opaque path that ends with a space. -/
def KeepsPath (s : UrlObject) (m : Mutation) : Prop :=
  m.apply s.list = [] → ∀ c, s.url = some c → ∀ u, A.parse (Utf8.encode (c .href)) none = some u →
    A.strips u = true → (A.get .pathname u).getLast? ≠ some space

def Synced (s : UrlObject) : Prop := ∃ c, s.url = some c ∧ s.list = parseSearchParams (c .search)

/-- No component but `search` and `href` differs. -/
def SameOthers (s s' : UrlObject) : Prop :=
  ∃ c c', s.url = some c ∧ s'.url = some c' ∧ ∀ k, k ≠ .search → k ≠ .href → c' k = c k

variable {A} {s s' : UrlObject}

/-! ## Strings and octets -/

theorem encode_strings (c : Component) (u : A.Parsed) : Utf8.encode (strings A u c) = A.get c u := by
  obtain ⟨text, htext⟩ := A.utf8 c u
  rw [strings, ← htext, Utf8.decode_encode]

theorem encode_decode_toString (l : List ParamEntry) : Utf8.encode (Utf8.decode (toString l)) = toString l := by
  have hascii : ∀ b ∈ toString l, b.toNat < 0x80 := fun b hb => queryOctet_ascii (toString_queryOctet hb)
  obtain ⟨text, htext⟩ := Utf8.exists_encode hascii
  rw [← htext, Utf8.decode_encode]

variable {u : A.Parsed}

theorem toV8_of_le (h : ∀ k, (A.get k u).length ≤ A.maxLength) : toV8 A u = some (strings A u) := by
  refine if_pos ?_
  simp [h]

variable {l : List ParamEntry}

theorem toString_eq_nil (h : toString l = []) : l = [] := by
  have hentry : ∀ e : ParamEntry, entryToString e ≠ [] := by simp [entryToString]
  cases l with
  | nil => rfl
  | cons e l =>
    cases l with
    | nil => exact absurd h (hentry e)
    | cons e' l =>
      rw [toString_cons] at h
      exact absurd (append_eq_nil_iff.mp h).1 (hentry e)

theorem parse_search (h : (toString l).length < 2 ^ 31) :
    parse (if toString l = [] then [] else questionMark :: toString l) = l := by
  split
  · next hnil =>
    rw [toString_eq_nil hnil]
    rfl
  · exact parse_questionMark h

theorem decode_encodeEntries (list : ParamList) :
    (encodeEntries list).map (fun e => (Utf8.decode e.1, Utf8.decode e.2)) = list := by
  rw [encodeEntries, List.map_map]
  refine (map_congr_left fun e _ => ?_).trans (List.map_id list)
  show (Utf8.decode (Utf8.encode e.1), Utf8.decode (Utf8.encode e.2)) = e
  rw [Utf8.decode_encode, Utf8.decode_encode]

/-! ## One step -/

/-- The strings are those of a URL that ada holds. -/
def Inv (A : Ada) (s : UrlObject) : Prop :=
  ∃ u : A.Parsed, s.url = some (strings A u) ∧ s.list = parseSearchParams (strings A u .search)

theorem Inv.synced (hi : Inv A s) : Synced s := by
  obtain ⟨u, hurl, hlist⟩ := hi
  exact ⟨_, hurl, hlist⟩

theorem reparse_href (u : A.Parsed) :
    ∃ u', A.parse (Utf8.encode (strings A u .href)) none = some u' ∧ ∀ c, A.get c u' = A.get c u := by
  rw [encode_strings]
  exact A.reparse u

theorem Inv.assign {p : Property} {value : Text} (hi : Inv A s) (hf : Fits A s (.assign p value)) : Inv A (assign A s p value) := by
  obtain ⟨u, hurl, hlist⟩ := hi
  obtain ⟨u', hparse, -⟩ := reparse_href u
  have hv8 := toV8_of_le (hf _ hurl u' hparse)
  rw [Ev.call] at hv8
  unfold Url.assign
  simp only [hurl, updateUrl, hparse]
  by_cases hok : ((A.set p u' (Utf8.encode value)).2 || p.isVoid) = true
  · rw [if_pos hok, hv8]
    exact ⟨(A.set p u' (Utf8.encode value)).1, rfl, by dsimp only⟩
  · rw [if_neg hok]
    exact ⟨u, rfl, hlist⟩

theorem Inv.mutate {m : Mutation} (hi : Inv A s) (hf : Fits A s (.mutate m)) (hs : mutate A s m = some s') :
    Inv A s' ∧ (KeepsPath A s m → SameOthers s s') := by
  obtain ⟨u, hurl, -⟩ := hi
  obtain ⟨u', hparse, hsame⟩ := reparse_href u
  obtain ⟨search, hser, rfl⟩ := map_eq_some_iff.mp hs
  obtain ⟨hlen, hsearch⟩ := ite_none_right_eq_some.mp hser
  have hlt : (toString (encodeEntries (m.apply s.list))).length < 2 ^ 31 := Nat.lt_of_le_of_lt hlen A.maxLength_lt
  have hoctets : ∀ b ∈ toString (encodeEntries (m.apply s.list)), queryOctet b = true := fun b hb => toString_queryOctet hb
  have hv8 := toV8_of_le (hf _ hurl u' hparse)
  rw [Ev.call] at hv8
  have hvalue : Utf8.encode search = toString (encodeEntries (m.apply s.list)) := by
    rw [← Option.some.inj hsearch, encode_decode_toString]
  have hupdate : updateURLSearch A { s with list := m.apply s.list } search =
      { url := some (strings A (A.set .search u' (toString (encodeEntries (m.apply s.list)))).1),
        list := m.apply s.list, thrown := none } := by
    unfold updateURLSearch
    simp only [hurl, updateUrl, hparse, hvalue, Property.isVoid, Bool.or_true, if_true, hv8]
  rw [hupdate]
  refine ⟨⟨_, rfl, ?_⟩, fun hk => ⟨_, _, hurl, rfl, fun k hks hkh => ?_⟩⟩
  · -- the list parses back
    rw [parseSearchParams, encode_strings, A.set_search _ _ hoctets, parse_search hlt, decode_encodeEntries]
  · show Utf8.decode (A.get k (A.set .search u' _).1) = Utf8.decode (A.get k u)
    congr 1
    by_cases hkp : k = .pathname
    · rw [hkp, A.set_search_pathname _ _ hoctets, ← hsame]
      split
      · next hstrip =>
        have hnil : m.apply s.list = [] := by
          have := toString_eq_nil hstrip.1
          rwa [encodeEntries, map_eq_nil_iff] at this
        have hlast := hk hnil _ hurl u' hparse hstrip.2
        rw [rdropWhile_eq_self_iff]
        intro hne
        rw [getLast?_eq_getLast_of_ne_nil hne] at hlast
        simpa using hlast
      · rfl
    · rw [A.set_search_other _ _ _ hoctets hks hkh hkp, hsame]

variable {e : Ev}

theorem step_inv (hi : Inv A s) (hf : Fits A s e) (hs : step A s e = some s') : Inv A s' := by
  cases e with
  | assign p value =>
    obtain rfl := Option.some.inj hs
    exact hi.assign hf
  | mutate m => exact (hi.mutate hf hs).1

variable {c : Components}

theorem toV8_eq_some (h : toV8 A u = some c) : c = strings A u :=
  (Option.some.inj (ite_none_right_eq_some.mp h).2).symm

variable {url : Text} {base : Option Text}

theorem parseUrl_ok (h : parseUrl A url base = .ok (some c)) : ∃ u : A.Parsed, c = strings A u := by
  have hparsed : ∀ b : Option A.Parsed, (match A.parse (Utf8.encode url) b with
      | none => Except.error Thrown.invalidUrl
      | some u => .ok (toV8 A u)) = .ok (some c) → ∃ u : A.Parsed, c = strings A u := by
    intro b hb
    split at hb
    · cases hb
    · next u _ => exact ⟨u, toV8_eq_some (Except.ok.inj hb)⟩
  unfold parseUrl at h
  cases base with
  | none => exact hparsed none h
  | some base =>
    dsimp only at h
    split at h
    · cases h
    · next b _ => exact hparsed (some b) h

theorem construct_inv (h : construct A url base = some s) : Inv A s := by
  unfold construct at h
  split at h
  · next c hc =>
    obtain ⟨u, rfl⟩ := parseUrl_ok hc
    obtain rfl := Option.some.inj h
    exact ⟨u, rfl, by dsimp only⟩
  · cases h

/-! ## A URL with an opaque path -/

def sharp : UInt8 := 0x23

def isAscii (b : UInt8) : Bool := b.toNat < 0x80

def inQuery (b : UInt8) : Bool := isAscii b && b ≠ sharp

def inPath (b : UInt8) : Bool := inQuery b && b ≠ questionMark

/-- `a:path?query#hash`; a query or fragment that is empty is none. -/
structure Plain where
  path : Bytes
  query : Bytes
  hash : Bytes
  path_ok : path.all inPath = true
  query_ok : query.all inQuery = true
  hash_ok : hash.all isAscii = true

variable {octets : Bytes}

namespace Plain

def part (mark : UInt8) (octets : Bytes) : Bytes := if octets = [] then [] else mark :: octets

def href (u : Plain) : Bytes := [0x61, 0x3A] ++ (u.path ++ (part questionMark u.query ++ part sharp u.hash))

def get (u : Plain) : Component → Bytes
  | .origin => [0x6E, 0x75, 0x6C, 0x6C]
  | .protocol => [0x61, 0x3A]
  | .username | .password | .host | .hostname | .port => []
  | .pathname => u.path
  | .search => part questionMark u.query
  | .hash => part sharp u.hash
  | .href => u.href

def afterPath (octets : Bytes) : Bytes × Bytes :=
  if octets.head? = some questionMark then (octets.tail.takeWhile inQuery, (octets.tail.dropWhile inQuery).tail)
  else ([], octets.tail)

theorem afterPath_parts {query hash : Bytes} (hq : query.all inQuery = true) :
    afterPath (part questionMark query ++ part sharp hash) = (query, hash) := by
  have hsharp : inQuery sharp = false := by decide
  by_cases hquery : query = []
  · by_cases hhash : hash = []
    · simp [hquery, hhash, part, afterPath]
    · have hne : sharp ≠ questionMark := by decide
      simp [hquery, hhash, part, afterPath, hne]
  · rw [List.all_eq_true] at hq
    have htake : (query ++ part sharp hash).takeWhile inQuery = query := by
      rw [takeWhile_append_of_pos hq]
      by_cases hhash : hash = [] <;> simp [part, hhash, hsharp]
    have hdrop : ((query ++ part sharp hash).dropWhile inQuery).tail = hash := by
      rw [dropWhile_append_of_pos hq]
      by_cases hhash : hash = [] <;> simp [part, hhash, hsharp]
    rw [afterPath]
    simp [part, hquery] at htake hdrop ⊢
    exact ⟨htake, hdrop⟩

theorem afterPath_ok (h : octets.all isAscii = true) :
    (afterPath octets).1.all inQuery = true ∧ (afterPath octets).2.all isAscii = true := by
  rw [List.all_eq_true] at h
  unfold afterPath
  split
  · refine ⟨all_takeWhile, List.all_eq_true.mpr fun b hb => h b ?_⟩
    exact mem_of_mem_tail ((dropWhile_sublist _).subset (mem_of_mem_tail hb))
  · exact ⟨rfl, List.all_eq_true.mpr fun b hb => h b (mem_of_mem_tail hb)⟩

theorem afterPath_drop_ok (h : octets.all isAscii = true) :
    (afterPath ((octets.drop 2).dropWhile inPath)).1.all inQuery = true ∧
      (afterPath ((octets.drop 2).dropWhile inPath)).2.all isAscii = true := by
  rw [List.all_eq_true] at h
  refine afterPath_ok (List.all_eq_true.mpr fun b hb => h b ?_)
  exact mem_of_mem_drop ((dropWhile_sublist _).subset hb)

def parse (octets : Bytes) : Option Plain :=
  if h : octets.all isAscii = true ∧ octets.take 2 = [0x61, 0x3A] then
    some {
      path := (octets.drop 2).takeWhile inPath
      query := (afterPath ((octets.drop 2).dropWhile inPath)).1
      hash := (afterPath ((octets.drop 2).dropWhile inPath)).2
      path_ok := all_takeWhile
      query_ok := (afterPath_drop_ok h.1).1
      hash_ok := (afterPath_drop_ok h.1).2 }
  else none

theorem get_ascii (u : Plain) (c : Component) : (u.get c).all isAscii = true := by
  have hq : ∀ l : Bytes, l.all inQuery = true → l.all isAscii = true := by
    intro l hl
    rw [List.all_eq_true] at hl ⊢
    intro b hb
    exact (Bool.and_eq_true_iff.mp (hl b hb)).1
  have hpath : u.path.all isAscii = true := by
    refine hq _ ?_
    have hp := u.path_ok
    rw [List.all_eq_true] at hp ⊢
    intro b hb
    exact (Bool.and_eq_true_iff.mp (hp b hb)).1
  have hpart : ∀ (mark : UInt8) (l : Bytes), isAscii mark = true → l.all isAscii = true → (part mark l).all isAscii = true := by
    intro mark l hm hl
    unfold part
    split
    · rfl
    · rw [all_cons, hm, hl]
      rfl
  have hsearch := hpart questionMark u.query (by decide) (hq _ u.query_ok)
  have hhash := hpart sharp u.hash (by decide) u.hash_ok
  cases c with
  | pathname => exact hpath
  | search => exact hsearch
  | hash => exact hhash
  | href =>
    show u.href.all isAscii = true
    rw [href, all_append, all_append, all_append, hpath, hsearch, hhash]
    rfl
  | _ => rfl

theorem parse_href (u : Plain) : parse u.href = some u := by
  have hascii := get_ascii u .href
  have hrest : u.href.drop 2 = u.path ++ (part questionMark u.query ++ part sharp u.hash) := rfl
  have hp := u.path_ok
  rw [List.all_eq_true] at hp
  have hstop : ∀ b, (part questionMark u.query ++ part sharp u.hash).head? = some b → inPath b = false := by
    intro b hb
    have hmark : b = questionMark ∨ b = sharp := by
      by_cases hq : u.query = []
      · by_cases hh : u.hash = []
        · simp [part, hq, hh] at hb
        · simp [part, hq, hh] at hb
          exact Or.inr hb.symm
      · simp [part, hq] at hb
        exact Or.inl hb.symm
    rcases hmark with rfl | rfl <;> decide
  have htake : (u.href.drop 2).takeWhile inPath = u.path := by
    rw [hrest, takeWhile_append_of_pos hp]
    cases hr : part questionMark u.query ++ part sharp u.hash with
    | nil => simp
    | cons b r => simp [hstop b (by rw [hr]; rfl)]
  have hdrop : (u.href.drop 2).dropWhile inPath = part questionMark u.query ++ part sharp u.hash := by
    rw [hrest, dropWhile_append_of_pos hp]
    cases hr : part questionMark u.query ++ part sharp u.hash with
    | nil => simp
    | cons b r => simp [hstop b (by rw [hr]; rfl)]
  have hafter : afterPath (part questionMark u.query ++ part sharp u.hash) = (u.query, u.hash) := afterPath_parts u.query_ok
  unfold parse
  rw [dif_pos ⟨hascii, rfl⟩]
  congr
  · rw [hdrop, hafter]
  · rw [hdrop, hafter]

theorem strip_ok {path : Bytes} (h : path.all inPath = true) (strip : Prop) [Decidable strip] :
    (if strip then path.rdropWhile (· = space) else path).all inPath = true := by
  split
  · rw [List.all_eq_true] at h ⊢
    intro b hb
    exact h b (( rdropWhile_prefix _ _).subset hb)
  · exact h

/-- Values that cannot be stored as they are leave the URL alone. -/
def set (u : Plain) (p : Property) (value : Bytes) : Plain × Bool :=
  match p with
  | .search =>
    if h : value.all inQuery = true then
      ({ u with
        path := if value = [] ∧ u.hash = [] then u.path.rdropWhile (· = space) else u.path
        query := value
        path_ok := strip_ok u.path_ok _
        query_ok := h }, true)
    else (u, true)
  | .hash => if h : value.all isAscii = true then ({ u with hash := value, hash_ok := h }, true) else (u, true)
  | _ => (u, false)

theorem set_search_eq (u : Plain) {value : Bytes} (h : ∀ b ∈ value, queryOctet b = true) :
    (u.set .search value).1.path = (if value = [] ∧ u.hash = [] then u.path.rdropWhile (· = space) else u.path) ∧
      (u.set .search value).1.query = value ∧ (u.set .search value).1.hash = u.hash := by
  have hall : value.all inQuery = true := by
    refine List.all_eq_true.mpr fun b hb => ?_
    have hne : b ≠ sharp := by
      rintro rfl
      exact absurd (h _ hb) (by decide)
    have hascii : isAscii b = true := decide_eq_true (queryOctet_ascii (h b hb))
    rw [inQuery, hascii]
    simpa using hne
  simp [set, hall]

end Plain

/-- A 64-bit V8, and URLs of one scheme. -/
def plainAda : Ada where
  Parsed := Plain
  parse octets _ := Plain.parse octets
  get c u := u.get c
  set p u value := u.set p value
  strips u := u.hash = []
  maxLength := 2 ^ 29 - 24
  utf8 c u := Utf8.exists_encode fun b hb => of_decide_eq_true (List.all_eq_true.mp (u.get_ascii c) b hb)
  reparse u := ⟨u, u.parse_href, fun _ => rfl⟩
  set_search u q h := by
    show Plain.part questionMark (u.set .search q).1.query = _
    rw [(u.set_search_eq h).2.1]
    rfl
  set_search_other u q c h hs hh hp := by
    obtain ⟨-, -, hhash⟩ := u.set_search_eq h
    cases c with
    | search => exact absurd rfl hs
    | href => exact absurd rfl hh
    | pathname => exact absurd rfl hp
    | hash =>
      show Plain.part sharp (u.set .search q).1.hash = Plain.part sharp u.hash
      rw [hhash]
    | _ => rfl
  set_search_pathname u q h := by
    show (u.set .search q).1.path = _
    rw [(u.set_search_eq h).1]
    simp [Plain.get]
  maxLength_lt := by norm_num

/-! ## Whole runs -/

theorem url_synced {url : Text} {base : Option Text} {es : List Ev} {t : UrlObject} (h0 : construct A url base = some s)
    (hf : Along (step A) (Fits A) s es) (hr : run (step A) s es = some t) :
    Synced t ∧ ∀ m t', Fits A t (.mutate m) → KeepsPath A t m → mutate A t m = some t' → SameOthers t t' := by
  have hi : Inv A t := run_inv (fun _ _ _ hi hq hs => step_inv hi hq hs) (construct_inv h0) hf hr
  exact ⟨hi.synced, fun m t' hfit hk ht => (hi.mutate hfit ht).2 hk⟩

theorem fits_of_parse (hurl : s.url = some c) (hparse : A.parse (Utf8.encode (c .href)) none = some u)
    (h : ∀ k ∈ Component.all, (A.get k (A.set (e.call s).1 u (e.call s).2).1).length ≤ A.maxLength) : Fits A s e := by
  intro c' hc' u' hu' k
  obtain rfl := Option.some.inj (hurl.symm.trans hc')
  obtain rfl := Option.some.inj (hparse.symm.trans hu')
  exact h k (by cases k <;> decide)

/-- A fragment, a parameter, and a port that an opaque path cannot have. -/
def fewChanges : List Ev :=
  [.assign .hash ['h'], .mutate (.append ['k'] ['&', 'é']), .assign .port ['8']]

theorem fewChanges_synced :
    ∃ s t, construct plainAda ['a', ':', 'p', '?', 'x'] none = some s ∧ run (step plainAda) s fewChanges = some t ∧ Synced t := by
  obtain ⟨s, hs⟩ : ∃ s, construct plainAda ['a', ':', 'p', '?', 'x'] none = some s := ⟨_, rfl⟩
  obtain ⟨t, ht⟩ : ∃ t, run (step plainAda) s fewChanges = some t := by
    cases hs
    exact ⟨_, rfl⟩
  have hf : Along (step plainAda) (Fits plainAda) s fewChanges := by
    cases hs
    refine along_cons.mpr ⟨fits_of_parse rfl rfl (by decide), fun s' hs' => ?_⟩
    cases hs'
    refine along_cons.mpr ⟨fits_of_parse rfl rfl (by decide), fun s' hs' => ?_⟩
    cases hs'
    refine along_cons.mpr ⟨fits_of_parse rfl rfl (by decide), fun s' hs' => trivial⟩
  exact ⟨s, t, hs, ht, (url_synced hs hf ht).1⟩

theorem encode_replicate (n : Nat) : Utf8.encode (List.replicate n 'x') = List.replicate n 0x78 := by
  induction n with
  | zero => rfl
  | succ n ih =>
    rw [Utf8.encode] at ih
    rw [replicate_succ, Utf8.encode, flatMap_cons, ih]
    rfl

theorem hash_lost {u : Plain} {n : Nat} (hurl : s.url = some c)
    (hparse : Plain.parse (Utf8.encode (c .href)) = some u) (hn : n = 2 ^ 29 - 24) :
    (assign plainAda s .hash (List.replicate n 'x')).url = none := by
  have hall : (List.replicate n (0x78 : UInt8)).all isAscii = true := by simp [isAscii]
  have hset : u.set .hash (List.replicate n 0x78) = ({ u with hash := List.replicate n 0x78, hash_ok := hall }, true) := dif_pos hall
  have hne : List.replicate n (0x78 : UInt8) ≠ [] := by
    rw [Ne, replicate_eq_nil_iff]
    omega
  have hlong : toV8 plainAda (u.set .hash (List.replicate n 0x78)).1 = none := by
    refine if_neg fun hfit => ?_
    have hhash := List.all_eq_true.mp hfit .hash (by decide)
    have hle : (Plain.part sharp (u.set .hash (List.replicate n 0x78)).1.hash).length ≤ 2 ^ 29 - 24 := of_decide_eq_true hhash
    rw [hset, Plain.part, if_neg hne, length_cons, length_replicate] at hle
    omega
  have hupdate : updateUrl plainAda .hash (c .href) (List.replicate n 'x') = .ok none := by
    unfold updateUrl
    rw [encode_replicate]
    have hparse' : plainAda.parse (Utf8.encode (c .href)) none = some u := hparse
    rw [hparse']
    exact (if_pos (Bool.or_true _)).trans (congrArg Except.ok hlong)
  unfold assign
  simp only [hurl, hupdate]

/-- The longest string that there is as a fragment; and the last parameter of an opaque path. -/
theorem url_lost :
    (∃ s, construct plainAda ['a', ':', 'p'] none = some s ∧ (assign plainAda s .hash (List.replicate (2 ^ 29 - 24) 'x')).url = none) ∧
    ∃ s t, construct plainAda ['a', ':', 'p', ' ', '?', 'x'] none = some s ∧ mutate plainAda s (.delete ['x']) = some t ∧
      s.url.map (· .pathname) = some ['p', ' '] ∧ t.url.map (· .pathname) = some ['p'] := by
  refine ⟨⟨_, rfl, hash_lost rfl rfl rfl⟩, _, _, rfl, rfl, rfl, rfl⟩

end Aworker.Url
