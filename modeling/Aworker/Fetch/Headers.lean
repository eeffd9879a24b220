/-
  Aworker.Fetch.Headers — header lists (lib/fetch/headers.js).

  A `Headers` object is a list of lower-case legal names with legal values; only
  `set-cookie` may stand in it more than once, for different cookies (`HeadersOk`).

  - `ofTuples_isOk`: a list read from another object is always accepted again.
  - `strip_keeps` / `strip_none`: what the loop that deletes while it iterates leaves.
  Also `get_ofTuples`, `ofTuples_stable`.
-/

import Mathlib
import Aworker.Fetch.Js
import Aworker.Lib.Text

namespace Aworker.Fetch

open Aworker.Lib List

/-! ## Names and values -/

/-- What `invalidTokenRegex` does not match. -/
def isTokenChar (c : Char) : Bool :=
  let n := c.toNat
  n == 0x21 || (0x23 ≤ n && n ≤ 0x27) || n == 0x2a || n == 0x2b || n == 0x2d || n == 0x2e || (0x30 ≤ n && n ≤ 0x39) ||
    (0x41 ≤ n && n ≤ 0x5a) || (0x5e ≤ n && n ≤ 0x7a) || n == 0x7c || n == 0x7e

/-- What `invalidHeaderCharRegex` does not match. -/
def isHeaderChar (c : Char) : Bool :=
  let n := c.toNat
  n == 0x09 || (0x20 ≤ n && n ≤ 0x7e) || (0x80 ≤ n && n ≤ 0xff)

/-- What `String.prototype.trim` takes away. -/
def isWhiteSpace (c : Char) : Bool :=
  let n := c.toNat
  (0x09 ≤ n && n ≤ 0x0d) || n == 0x20 || n == 0xa0 || n == 0x1680 || (0x2000 ≤ n && n ≤ 0x200a) || n == 0x2028 || n == 0x2029 ||
    n == 0x202f || n == 0x205f || n == 0x3000 || n == 0xfeff

/-- `validateName` does not throw. -/
def legalName (name : Text) : Bool := name.all isTokenChar && !name.isEmpty

/-- `validateValue` does not throw. -/
def legalValue (value : Text) : Bool := value.all isHeaderChar

/-- Of the letters outside ASCII only the Kelvin sign has a lower case that may stand in a name. -/
def lowerChar (c : Char) : Char := if c = '\u212a' then 'k' else c.toLower

def toLowerCase (t : Text) : Text := t.map lowerChar

def trimmed (t : Text) : Text := trim isWhiteSpace t

def setCookie : Text := "set-cookie".toList

/-- `value.split('=')[0]` -/
def cookieKey (value : Text) : Text := value.takeWhile (· != '=')

def validateName (name : Text) : Except JsError Unit :=
  if legalName name then .ok () else .error (.typeError (name ++ " is not a legal HTTP header name".toList))

/-! ## The list -/

abbrev HeaderList := List (Text × Text)

def dataAppend : HeaderList → Text → Text → HeaderList
  | [], key, value => [(key, value)]
  | (dataKey, dataValue) :: data, key, value =>
    if key = setCookie ∧ dataKey = setCookie then
      if cookieKey dataValue = cookieKey value then (dataKey, value) :: data
      else (dataKey, dataValue) :: dataAppend data key value
    else if dataKey = key then (dataKey, dataValue ++ ", ".toList ++ value) :: data
    else (dataKey, dataValue) :: dataAppend data key value

def dataGet (data : HeaderList) (key : Text) : Option Text :=
  if key = setCookie then
    match (data.filter (·.1 = key)).map Prod.snd with
    | [] => none
    | values => some (List.intercalate ", ".toList values)
  else (data.find? (·.1 = key)).map Prod.snd

def dataDelete (data : HeaderList) (key : Text) : HeaderList := data.filter (·.1 ≠ key)

def dataHas (data : HeaderList) (key : Text) : Bool := data.any (·.1 = key)

/-- Two entries that may stand in one list. -/
def Apart (a b : Text × Text) : Prop := a.1 = b.1 → a.1 = setCookie ∧ cookieKey a.2 ≠ cookieKey b.2

structure HeadersOk (data : HeaderList) : Prop where
  name : ∀ h ∈ data, legalName h.1 = true ∧ toLowerCase h.1 = h.1
  value : ∀ h ∈ data, legalValue h.2 = true
  distinct : data.Pairwise Apart

variable {data : HeaderList} {key value : Text}

theorem mem_dataAppend {x : Text × Text} (h : x ∈ dataAppend data key value) :
    x ∈ data ∨ x = (key, value) ∨ (key ≠ setCookie ∧ ∃ v, (key, v) ∈ data ∧ x = (key, v ++ ", ".toList ++ value)) := by
  induction data with
  | nil => simp only [dataAppend, mem_singleton] at h; exact Or.inr (Or.inl h)
  | cons a data ih =>
    obtain ⟨k, v⟩ := a
    have later : x ∈ (k, v) :: dataAppend data key value → x ∈ (k, v) :: data ∨ x = (key, value) ∨
        (key ≠ setCookie ∧ ∃ w, (key, w) ∈ (k, v) :: data ∧ x = (key, w ++ ", ".toList ++ value)) := by
      intro hx
      rcases mem_cons.mp hx with rfl | hx
      · exact Or.inl mem_cons_self
      · rcases ih hx with hd | he | ⟨hne, w, hw, he⟩
        · exact Or.inl (mem_cons_of_mem _ hd)
        · exact Or.inr (Or.inl he)
        · exact Or.inr (Or.inr ⟨hne, w, mem_cons_of_mem _ hw, he⟩)
    simp only [dataAppend] at h
    split at h
    · rename_i hc
      split at h
      · rcases mem_cons.mp h with rfl | hx
        · exact Or.inr (Or.inl (by rw [hc.1, hc.2]))
        · exact Or.inl (mem_cons_of_mem _ hx)
      · exact later h
    · rename_i hc
      split at h
      · rename_i hk
        subst hk
        rcases mem_cons.mp h with rfl | hx
        · exact Or.inr (Or.inr ⟨fun hs => hc ⟨hs, hs⟩, v, mem_cons_self, rfl⟩)
        · exact Or.inl (mem_cons_of_mem _ hx)
      · exact later h

variable {k v : Text}

theorem apart_dataAppend (hd : ∀ b ∈ data, Apart (k, v) b)
    (hnew : Apart (k, v) (key, value)) (hk : k = key → k = setCookie) : ∀ b ∈ dataAppend data key value, Apart (k, v) b := by
  intro b hb
  rcases mem_dataAppend hb with hb | rfl | ⟨hne, w, -, rfl⟩
  · exact hd b hb
  · exact hnew
  · intro he
    exact absurd ((show key = k from he.symm) ▸ hk he) hne

theorem distinct_dataAppend (h : data.Pairwise Apart) : (dataAppend data key value).Pairwise Apart := by
  induction data with
  | nil => simp [dataAppend]
  | cons a data ih =>
    obtain ⟨k, v⟩ := a
    obtain ⟨ha, hd⟩ := pairwise_cons.mp h
    simp only [dataAppend]
    split
    · rename_i hc
      obtain ⟨rfl, rfl⟩ := hc
      split
      · rename_i hv
        refine pairwise_cons.mpr ⟨fun b hb he => ?_, hd⟩
        exact ⟨rfl, by rw [← hv]; exact (ha b hb he).2⟩
      · rename_i hv
        exact pairwise_cons.mpr ⟨apart_dataAppend ha (fun _ => ⟨rfl, hv⟩) (fun _ => rfl), ih hd⟩
    · rename_i hc
      split
      · rename_i hk
        refine pairwise_cons.mpr ⟨fun b hb he => ?_, hd⟩
        have hs : k = setCookie := (ha b hb he).1
        exact absurd ⟨hk ▸ hs, hs⟩ hc
      · rename_i hk
        exact pairwise_cons.mpr ⟨apart_dataAppend ha (fun he => absurd he hk) (fun he => absurd he hk), ih hd⟩

theorem legalValue_append {a b : Text} : legalValue (a ++ b) = (legalValue a && legalValue b) := all_append

theorem HeadersOk.append (h : HeadersOk data) (hk : legalName key = true)
    (hl : toLowerCase key = key) (hv : legalValue value = true) : HeadersOk (dataAppend data key value) := by
  refine ⟨fun x hx => ?_, fun x hx => ?_, distinct_dataAppend h.distinct⟩
  · rcases mem_dataAppend hx with hx | rfl | ⟨-, v, hm, rfl⟩
    · exact h.name x hx
    · exact ⟨hk, hl⟩
    · exact ⟨hk, hl⟩
  · rcases mem_dataAppend hx with hx | rfl | ⟨-, v, hm, rfl⟩
    · exact h.value x hx
    · exact hv
    · have hsep : legalValue ", ".toList = true := by decide
      simp only [legalValue_append, h.value _ hm, hsep, hv, Bool.and_self]

theorem HeadersOk.sublist {data' : HeaderList} (h : HeadersOk data) (hs : data'.Sublist data) : HeadersOk data' :=
  ⟨fun x hx => h.name x (hs.subset hx), fun x hx => h.value x (hs.subset hx), h.distinct.sublist hs⟩

/-! ## Headers objects -/

structure Headers where
  data : HeaderList
  ok : HeadersOk data

@[ext] theorem Headers.ext {a b : Headers} (h : a.data = b.data) : a = b := by
  cases a; cases b; cases h; rfl

def Headers.empty : Headers := ⟨[], by simp, by simp, List.Pairwise.nil⟩

variable {c : Char}

theorem toLower_ne_kelvin (hc : c ≠ '\u212a') : c.toLower ≠ '\u212a' := by
  unfold Char.toLower
  split
  · next hupper =>
    intro h
    have hle : c.val.toNat ≤ 90 := UInt32.le_iff_toNat_le.mp hupper.2
    have hval : (c.val + ('a'.val - 'A'.val)).toNat = 0x212a := congrArg (fun c : Char => c.val.toNat) h
    have hsub : ('a'.val - 'A'.val).toNat = 32 := rfl
    rw [UInt32.toNat_add, hsub] at hval
    omega
  · exact hc

theorem lowerChar_idem (c : Char) : lowerChar (lowerChar c) = lowerChar c := by
  by_cases hc : c = '\u212a'
  · rw [hc]
    rfl
  · simp [lowerChar, hc, toLower_ne_kelvin hc]

theorem toLowerCase_idem (t : Text) : toLowerCase (toLowerCase t) = toLowerCase t := by
  simp [toLowerCase, map_map, Function.comp_def, lowerChar_idem]

variable {name : Text}

theorem mem_token (hn : legalName name = true) (hc : c ∈ name) : isTokenChar c = true := by
  rw [legalName, Bool.and_eq_true, all_eq_true] at hn
  exact hn.1 c hc

theorem colon_notMem_token (hn : legalName name = true) : ':' ∉ name := fun hm => absurd (mem_token hn hm) (by decide)

theorem lowerChar_token (hc : isTokenChar c = true) : isTokenChar (lowerChar c) = true := by
  have hall : ∀ n, n < 128 → isTokenChar (Char.ofNat n) = true → isTokenChar (lowerChar (Char.ofNat n)) = true := by decide
  have hlt : c.toNat < 128 := by
    simp only [isTokenChar, Bool.or_eq_true, Bool.and_eq_true, decide_eq_true_eq, beq_iff_eq] at hc
    omega
  have h := hall c.toNat hlt
  rw [Char.ofNat_toNat] at h
  exact h hc

theorem legalName_toLowerCase (hn : legalName name = true) : legalName (toLowerCase name) = true := by
  have hne : name ≠ [] := by
    rintro rfl
    cases hn
  rw [legalName, Bool.and_eq_true, all_eq_true]
  refine ⟨fun c hc => ?_, by simpa [toLowerCase] using hne⟩
  obtain ⟨d, hd, rfl⟩ := mem_map.mp hc
  exact lowerChar_token (mem_token hn hd)

/-- `append` before a guard is set, as the constructor calls it. -/
def Headers.append (h : Headers) (name value : Text) : Except JsError Headers :=
  let newname := toLowerCase name
  let newvalue := trimmed value
  if hn : legalName newname = true then
    if hv : legalValue newvalue = true then
      .ok ⟨dataAppend h.data newname newvalue, h.ok.append hn (toLowerCase_idem name) hv⟩
    else .error (.typeError (newvalue ++ " is not a legal HTTP header value".toList))
  else .error (.typeError (newname ++ " is not a legal HTTP header name".toList))

def Headers.appendAll : Headers → HeaderList → Except JsError Headers
  | h, [] => .ok h
  | h, (name, value) :: tuples =>
    match h.append name value with
    | .error e => .error e
    | .ok h' => h'.appendAll tuples

/-- `new Headers(tuples)` -/
def Headers.ofTuples (tuples : HeaderList) : Except JsError Headers := Headers.empty.appendAll tuples

def Headers.get (h : Headers) (name : Text) : Except JsError (Option Text) :=
  (validateName (toLowerCase name)).map fun _ => dataGet h.data (toLowerCase name)

theorem Headers.get_legal (h : Headers) (hn : legalName (toLowerCase name) = true) :
    h.get name = .ok (dataGet h.data (toLowerCase name)) := by
  simp [Headers.get, validateName, hn, Except.map]

theorem Headers.get_illegal (h : Headers) (hn : legalName (toLowerCase name) = false) : ∃ e, h.get name = .error e := by
  simp [Headers.get, validateName, hn, Except.map]

/-! ## Building a list again -/

theorem legalValue_trimmed (h : legalValue v = true) : legalValue (trimmed v) = true :=
  all_eq_true.mpr fun c hc => all_eq_true.mp h c (mem_of_mem_trim hc)

theorem append_ok (h : Headers) (hn : legalName name = true) (hl : toLowerCase name = name)
    (hv : legalValue value = true) : ∃ h', h.append name value = .ok h' ∧ h'.data = dataAppend h.data name (trimmed value) := by
  have hn' : legalName (toLowerCase name) = true := by rw [hl]; exact hn
  refine ⟨⟨dataAppend h.data (toLowerCase name) (trimmed value), h.ok.append hn' (toLowerCase_idem name) (legalValue_trimmed hv)⟩,
    ?_, by show dataAppend h.data (toLowerCase name) _ = _; rw [hl]⟩
  simp [Headers.append, hn', legalValue_trimmed hv]

variable {tuples : HeaderList}

theorem appendAll_isOk (ht : HeadersOk tuples) (h : Headers) : ∃ h', h.appendAll tuples = .ok h' := by
  induction tuples generalizing h with
  | nil => exact ⟨h, rfl⟩
  | cons a tuples ih =>
    obtain ⟨hn, hl⟩ := ht.name a mem_cons_self
    obtain ⟨h1, he, -⟩ := append_ok h hn hl (ht.value a mem_cons_self)
    obtain ⟨h2, h2e⟩ := ih (ht.sublist (sublist_cons_self a tuples)) h1
    exact ⟨h2, by simp only [Headers.appendAll, he]; exact h2e⟩

theorem ofTuples_isOk (ht : HeadersOk tuples) : ∃ h, Headers.ofTuples tuples = .ok h :=
  appendAll_isOk ht Headers.empty

theorem dataGet_dataAppend (hkey : key ≠ setCookie) (data : HeaderList) (k v : Text) :
    dataGet (dataAppend data k v) key =
      if k = key then some (match dataGet data key with | none => v | some w => w ++ ", ".toList ++ v)
      else dataGet data key := by
  simp only [dataGet, hkey, if_false]
  induction data with
  | nil => by_cases hk : k = key <;> simp [dataAppend, hk]
  | cons a data ih =>
    obtain ⟨k', v'⟩ := a
    simp only [dataAppend]
    split
    · rename_i hc
      have hkk : k ≠ key := fun he => hkey (he ▸ hc.1)
      have hkk' : k' ≠ key := fun he => hkey (he ▸ hc.2)
      split
      · simp [hkk']
      · rw [find?_cons_of_neg (by simpa using hkk'), ih]
        simp [hkk, hkk']
    · split
      · rename_i hk
        subst hk
        by_cases hkk : k' = key <;> simp [hkk]
      · rename_i hk
        by_cases hkk : k' = key
        · have : k ≠ key := fun he => hk (hkk.trans he.symm)
          simp [hkk, this]
        · rw [find?_cons_of_neg (by simpa using hkk), ih]
          simp [hkk]

theorem dataGet_none (hkey : key ≠ setCookie) (h : ∀ x ∈ data, x.1 ≠ key) : dataGet data key = none := by
  simp only [dataGet, hkey, if_false, Option.map_eq_none_iff, find?_eq_none]
  intro x hx
  simpa using h x hx

variable {h : Headers}

theorem get_appendAll (ht : HeadersOk tuples) (hkey : key ≠ setCookie) {h' : Headers}
    (hr : h.appendAll tuples = .ok h') (hnone : dataGet h.data key = none ∨ ∀ x ∈ tuples, x.1 ≠ key) :
    dataGet h'.data key = (dataGet h.data key).or ((dataGet tuples key).map trimmed) := by
  induction tuples generalizing h with
  | nil =>
    simp only [Headers.appendAll, Except.ok.injEq] at hr
    subst hr
    simp [dataGet, hkey]
  | cons a tuples ih =>
    obtain ⟨k, v⟩ := a
    obtain ⟨hn, hl⟩ := ht.name (k, v) mem_cons_self
    obtain ⟨h1, he, hd⟩ := append_ok h hn hl (ht.value (k, v) mem_cons_self)
    simp only [Headers.appendAll, he] at hr
    have hrest := ht.sublist (sublist_cons_self (k, v) tuples)
    have hget := dataGet_dataAppend hkey h.data k (trimmed v)
    by_cases hk : k = key
    · -- the name's one tuple; the rest has none
      have hno : ∀ x ∈ tuples, x.1 ≠ key := by
        intro x hx hxk
        have := (pairwise_cons.mp ht.distinct).1 x hx (hk.trans hxk.symm)
        exact hkey (hk ▸ this.1)
      have hn0 : dataGet h.data key = none := by
        rcases hnone with hn0 | hall
        · exact hn0
        · exact absurd hk (hall _ mem_cons_self)
      rw [ih hrest hr (Or.inr hno), hd, hget, if_pos hk, hn0]
      simp [dataGet, hkey, hk]
    · have hsame : dataGet h1.data key = dataGet h.data key := by rw [hd, hget, if_neg hk]
      have hsame' : dataGet ((k, v) :: tuples) key = dataGet tuples key := by simp [dataGet, hkey, hk]
      rw [ih hrest hr (hnone.imp (fun hx => hsame.trans hx) fun hall x hx => hall x (mem_cons_of_mem _ hx)), hsame, hsame']

/-- Apart from cookies, a name read into a new object has its value, trimmed. -/
theorem get_ofTuples (ht : HeadersOk tuples) (hkey : key ≠ setCookie)
    (hr : Headers.ofTuples tuples = .ok h) : dataGet h.data key = (dataGet tuples key).map trimmed := by
  have hempty : dataGet Headers.empty.data key = none := dataGet_none hkey (by simp [Headers.empty])
  rw [get_appendAll ht hkey hr (Or.inl hempty), hempty]
  rfl

theorem dataAppend_new (h : ∀ b ∈ data, Apart b (key, value)) : dataAppend data key value = data ++ [(key, value)] := by
  induction data with
  | nil => rfl
  | cons a data ih =>
    obtain ⟨k, v⟩ := a
    have ha := h (k, v) mem_cons_self
    have hrest := ih fun b hb => h b (mem_cons_of_mem _ hb)
    simp only [dataAppend]
    split
    · rename_i hc
      have hne : cookieKey v ≠ cookieKey value := (ha (hc.2.trans hc.1.symm)).2
      rw [if_neg hne, hrest, cons_append]
    · rename_i hc
      split
      · rename_i hk
        have hs := (ha hk).1
        exact absurd ⟨hk ▸ hs, hs⟩ hc
      · rw [hrest, cons_append]

theorem appendAll_stable (htrim : ∀ x ∈ tuples, trimmed x.2 = x.2)
    (hall : HeadersOk (h.data ++ tuples)) : ∃ h', h.appendAll tuples = .ok h' ∧ h'.data = h.data ++ tuples := by
  induction tuples generalizing h with
  | nil => exact ⟨h, rfl, by simp⟩
  | cons a tuples ih =>
    obtain ⟨k, v⟩ := a
    have hm : (k, v) ∈ h.data ++ (k, v) :: tuples := by simp
    obtain ⟨hn, hl⟩ := hall.name _ hm
    obtain ⟨h1, he, hd⟩ := append_ok h hn hl (hall.value _ hm)
    have hdata : h1.data = h.data ++ [(k, v)] := by
      rw [hd, htrim (k, v) mem_cons_self]
      exact dataAppend_new fun b hb => (pairwise_append.mp hall.distinct).2.2 b hb _ mem_cons_self
    have happ : h1.data ++ tuples = h.data ++ (k, v) :: tuples := by rw [hdata, append_assoc, singleton_append]
    obtain ⟨h2, h2e, h2d⟩ := ih (fun x hx => htrim x (mem_cons_of_mem _ hx)) (h := h1) (by rw [happ]; exact hall)
    exact ⟨h2, by simp only [Headers.appendAll, he]; exact h2e, by rw [h2d, happ]⟩

/-- A header object whose values are trimmed is rebuilt as it was. -/
theorem ofTuples_stable (h : Headers) (htrim : ∀ x ∈ h.data, trimmed x.2 = x.2) : Headers.ofTuples h.data = .ok h := by
  have hall : HeadersOk (Headers.empty.data ++ h.data) := h.ok
  obtain ⟨h', he, hd⟩ := appendAll_stable htrim hall
  rw [Headers.ofTuples, he]
  exact congrArg Except.ok (Headers.ext hd)

/-! ## Deleting while iterating -/

/-- `for (const h of headers) if (drop(h[0])) headers.delete(h[0])` from index `idx` on: the
    iterator counts indices of the list that is being shortened. -/
def strip (drop : Text → Bool) : Nat → Nat → HeaderList → HeaderList
  | 0, _, data => data
  | fuel + 1, idx, data =>
    match data[idx]? with
    | none => data
    | some h => strip drop fuel (idx + 1) (if drop h.1 then dataDelete data h.1 else data)

theorem strip_sublist (drop : Text → Bool) (fuel idx : Nat) (data : HeaderList) : (strip drop fuel idx data).Sublist data := by
  induction fuel generalizing idx data with
  | zero => exact List.Sublist.refl data
  | succ fuel ih =>
    simp only [strip]
    split
    · exact List.Sublist.refl data
    · split
      · exact (ih _ _).trans filter_sublist
      · exact ih _ _

theorem dataGet_dataDelete (hne : k ≠ key) : dataGet (dataDelete data k) key = dataGet data key := by
  have hfilter : (data.filter (·.1 ≠ k)).filter (·.1 = key) = data.filter (·.1 = key) := by
    rw [filter_filter]
    refine filter_congr fun x _ => ?_
    by_cases hx : x.1 = key
    · simp [hx, hne.symm]
    · simp [hx]
  have hfind : (data.filter (·.1 ≠ k)).find? (·.1 = key) = data.find? (·.1 = key) := by
    rw [← head?_filter, ← head?_filter, hfilter]
  simp only [dataGet, dataDelete, hfilter, hfind]

variable {drop : Text → Bool}

theorem strip_keeps (hk : drop key = false) (fuel idx : Nat) (data : HeaderList) :
    dataGet (strip drop fuel idx data) key = dataGet data key := by
  induction fuel generalizing idx data with
  | zero => rfl
  | succ fuel ih =>
    simp only [strip]
    split
    · rfl
    · rename_i h _
      rw [ih]
      split
      · rename_i hd
        exact dataGet_dataDelete (by rintro rfl; rw [hk] at hd; cases hd)
      · rfl

theorem strip_none (h : ∀ x ∈ data, drop x.1 = false) (fuel idx : Nat) : strip drop fuel idx data = data := by
  induction fuel generalizing idx with
  | zero => rfl
  | succ fuel ih =>
    simp only [strip]
    split
    · rfl
    · rename_i x hx
      rw [h x (mem_of_getElem? hx)]
      exact ih _

end Aworker.Fetch
