/-
  Aworker.Fetch.MultipartNames — which names of entries and files come back (lib/fetch/form.js:
  `MultipartBuilder`, `MultipartParser`; lib/fetch/body_helper.js: `getHeaderValueParams`).

  The builder writes names between quotes and escapes nothing. The parser makes a character of
  every byte, splits at `;` and `=` and takes the quotes away if there are none between them.

  Main results: `parse_tame`, `names_iff`.
  Trace: `names_lost`.
-/

import Mathlib
import Aworker.Fetch.MultipartEntries

namespace Aworker.Fetch.Multipart

open Aworker.Lib Aworker.Fetch.Shared List

variable {a b t n value boundary : Text} {c : Char} {body : Bytes} {p q : Parser}

/-! ## Names that can be read -/

def TameEntry (e : Entry) : Prop := Tame e.1 ∧ ∀ f, e.2 = .file f → Tame f.name

theorem mem_unquote (h : c ∈ unquote t) : c ∈ t := by
  unfold unquote at h
  split at h
  · split at h
    · exact mem_cons_of_mem _ (mem_of_mem_dropLast h)
    · exact h
  · exact h

theorem params_tame (hv : legalValue value = true) {param : Text × Text} (h : param ∈ getHeaderValueParams value) : Tame param.2 := by
  obtain ⟨pieces, hpieces, hparam⟩ := mem_filterMap.mp h
  obtain ⟨s, hs, rfl⟩ := mem_map.mp hpieces
  obtain ⟨hsemi, hmem⟩ := mem_splitOn (mem_of_mem_drop hs)
  match hsplit : (trimmed s).splitOn '=' with
  | [] => rw [hsplit] at hparam; cases hparam
  | [k] => rw [hsplit] at hparam; cases hparam
  | k :: v :: rest =>
    rw [hsplit] at hparam
    cases hparam
    have hmem' : v ∈ (trimmed s).splitOn '=' := by simp [hsplit]
    obtain ⟨heq, hv'⟩ := mem_splitOn hmem'
    intro c hc
    have hcv := mem_unquote hc
    have hcs : c ∈ s := mem_of_mem_trim (hv' c hcv)
    refine ⟨all_eq_true.mp hv c (hmem c hcs), ?_, ?_⟩
    · rintro rfl
      exact hsemi hcs
    · rintro rfl
      exact heq hcv

variable {params : List (Text × Text)}

theorem paramsGet_mem {key : Text} (h : paramsGet params key = some value) : ∃ k, (k, value) ∈ params := by
  obtain ⟨⟨k, v⟩, hfind, rfl⟩ := Option.map_eq_some_iff.mp h
  exact ⟨k, mem_reverse.mp (mem_of_find?_eq_some hfind)⟩

def LegalDisposition (headers : HeaderList) : Prop := ∀ v, dataGet headers (toLowerCase contentDisposition) = some v → legalValue v = true

variable {headers headers' : HeaderList}

theorem setRawHeader_legal (h : LegalDisposition headers) (hset : setRawHeader headers t = .ok headers') :
    LegalDisposition headers' := by
  unfold setRawHeader at hset
  split at hset
  · simp only [Deep.set, validateName, validateValue, bind, Except.bind] at hset
    split at hset
    · cases hset
    · split at hset
      · cases hset
      · rename_i hvalue
        split at hvalue
        · rename_i hlegal
          obtain rfl := Except.ok.inj hset
          intro v hv
          rw [show (if Guard.none = Guard.requestNoCors then _ else _) = _ from if_neg (by decide)] at hv
          rw [dataGet_dataSet dispositionKey_ne_setCookie] at hv
          split at hv
          · exact Option.some.inj hv ▸ hlegal
          · exact h v hv
        · cases hvalue
  · cases hset
    exact h

theorem foldlM_legal {lines : List Text} (h : LegalDisposition headers)
    (hfold : lines.foldlM setRawHeader headers = .ok headers') : LegalDisposition headers' := by
  induction lines generalizing headers with
  | nil =>
    cases hfold
    exact h
  | cons line lines ih =>
    rw [foldlM_cons] at hfold
    cases hset : setRawHeader headers line with
    | error e => rw [hset] at hfold; cases hfold
    | ok headers1 =>
      rw [hset] at hfold
      exact ih (setRawHeader_legal h hset) hfold

theorem parseHeaders_tame (h : parseHeaders t = .ok (headers, params)) : ∀ param ∈ params, Tame param.2 := by
  unfold parseHeaders at h
  cases hfold : (splitLines t).foldlM setRawHeader [] with
  | error e => rw [hfold] at h; cases h
  | ok headers1 =>
    rw [hfold] at h
    cases h
    intro param hparam
    cases hget : dataGet headers (toLowerCase contentDisposition) with
    | none =>
      rw [hget] at hparam
      exact params_tame (show legalValue [] = true from rfl) hparam
    | some v =>
      rw [hget] at hparam
      exact params_tame (foldlM_legal (fun v hv => by cases hv) hfold v hget) hparam

theorem Tame.fileName (h : Tame t) : Tame (fileName t) := by
  intro c hc
  obtain ⟨d, hd, rfl⟩ := mem_map.mp hc
  split
  · exact ⟨rfl, by decide, by decide⟩
  · exact h d hd

theorem finish_tame {content : Bytes} (h : ∀ e ∈ p.formData, TameEntry e) (hq : finish p content = .ok q) : ∀ e ∈ q.formData, TameEntry e := by
  unfold finish at hq
  cases hparse : parseHeaders p.headerText with
  | error e => rw [hparse] at hq; cases hq
  | ok parsed =>
    obtain ⟨headers, params⟩ := parsed
    have htame {key v : Text} (hget : paramsGet params key = some v) : Tame v := by
      obtain ⟨k, hk⟩ := paramsGet_mem hget
      exact parseHeaders_tame hparse _ hk
    rw [hparse] at hq
    simp only [bind, Except.bind] at hq
    cases hname : paramsGet params nameKey with
    | none =>
      rw [hname] at hq
      cases hq
      exact h
    | some name =>
      rw [hname] at hq
      dsimp only at hq
      split at hq
      · cases hq
        exact h
      · split at hq
        · rename_i filename hfile
          cases hq
          refine forall_mem_append.mpr ⟨h, forall_mem_singleton.mpr ⟨htame hname, ?_⟩⟩
          intro f hf
          cases hf
          exact (htame hfile).fileName
        · cases hq
          refine forall_mem_append.mpr ⟨h, forall_mem_singleton.mpr ⟨htame hname, ?_⟩⟩
          intro f hf
          cases hf

variable {i : Nat}

theorem step_tame (h : ∀ e ∈ p.formData, TameEntry e) (hq : step boundary body i p = .ok q) : ∀ e ∈ q.formData, TameEntry e := by
  by_cases hst : p.state = .content
  · obtain ⟨text, k, state, fileStart, formData⟩ := p
    cases hst
    cases hbyte : body[i]? with
    | none =>
      simp only [step, hbyte] at hq
      cases hq
      exact h
    | some byte =>
      simp only [step, hbyte, ParseState.inHeaders, Bool.false_eq_true, if_false] at hq
      split at hq
      · exact finish_tame h hq
      · cases hq
        exact h
  · obtain ⟨r, hr, hform, -⟩ := step_outside boundary body i hst
    rw [hr] at hq
    cases hq
    rwa [hform]

theorem loop_tame {m : Nat} (h : ∀ e ∈ p.formData, TameEntry e) (hq : loop boundary body i m p = .ok q) : ∀ e ∈ q.formData, TameEntry e := by
  induction m generalizing i p with
  | zero =>
    cases hq
    exact h
  | succ m ih =>
    rw [loop] at hq
    cases hstep : step boundary body i p with
    | error e => rw [hstep] at hq; cases hq
    | ok r =>
      rw [hstep] at hq
      exact ih (step_tame h hstep) hq

theorem parse_tame {entries : List Entry} (h : parse body boundary = .ok entries) : ∀ e ∈ entries, TameEntry e := by
  unfold parse at h
  split at h
  · cases h
  · cases hloop : loop (dashes ++ boundary) body 0 body.length ⟨[], 0, .preamble, 0, []⟩ with
    | error e => rw [hloop] at h; cases h
    | ok q =>
      rw [hloop] at h
      cases h
      exact loop_tame (fun e he => absurd he not_mem_nil) hloop

/-! ## Names that come back -/

/-- ASCII that a parameter can hold between its quotes. -/
def Safe (t : Text) : Prop := ∀ c ∈ t, (c = '\t' ∨ isPrintable c = true) ∧ c ≠ '"' ∧ c ≠ ';' ∧ c ≠ '='

theorem Safe.ascii (h : Safe t) : ∀ c ∈ t, c.toNat < 0x80 := by
  intro c hc
  rcases (h c hc).1 with rfl | hp
  · decide
  · have := (isPrintable_iff.mp hp).2
    omega

theorem Safe.tame (h : Safe t) : Tame t := by
  intro c hc
  obtain ⟨hchar, -, hs, he⟩ := h c hc
  refine ⟨?_, hs, he⟩
  rcases hchar with rfl | hp
  · rfl
  · exact printable_legal (t := [c]) (by simpa [Printable] using hp) c mem_cons_self

theorem Safe.nameRead (h : Safe t) : nameRead t = t := by
  rw [Multipart.nameRead, asRead_ascii h.ascii, unquote_quoted fun hm => (h _ hm).2.1 rfl]

theorem safe_of_length (h : Tame t) (hlen : (nameRead t).length ≤ t.length) : Safe t := by
  have hle := Utf8.length_le_encode t
  rcases unquote_quoted_cases (asRead t) with ⟨he, hq⟩ | he
  · rw [nameRead, he, asRead_length] at hlen
    have hascii := Utf8.ascii_of_length hlen
    rw [asRead_ascii hascii] at hq
    intro c hc
    obtain ⟨hlegal, hs, heq⟩ := h c hc
    refine ⟨?_, fun hquote => hq (hquote ▸ hc), hs, heq⟩
    have hlt := hascii c hc
    simp only [isHeaderChar, Bool.or_eq_true, Bool.and_eq_true, decide_eq_true_eq, beq_iff_eq] at hlegal
    by_cases htab : c.toNat = 0x09
    · exact Or.inl (Char.toNat_inj.mp htab)
    · exact Or.inr (isPrintable_iff.mpr (by omega))
  · rw [nameRead, he, quoted, length_cons, length_append, asRead_length] at hlen
    omega

/-- The names are not empty, the file is one that `File` makes, and the contents are harmless. -/
structure Harmless (boundary : Text) (e : Entry) : Prop where
  name : e.1 ≠ []
  value : match e.2 with
    | .text value => value.head? ≠ some (Char.ofNat 0xFEFF)
    | .file f => f.name ≠ [] ∧ fileName f.name = f.name ∧ PlainType f.type
  absent : ¬Utf8.encode (dashes ++ boundary) <:+: entryContent e

/-- The same text, or a file of the same name and contents. -/
def SameValue : FormValue → FormValue → Prop
  | .text v, .text w => w = v
  | .file f, .file g => g.name = f.name ∧ g.bytes = f.bytes
  | _, _ => False

/-- There is one entry, and it is the one that was written. -/
def Returned (e : Entry) (entries : List Entry) : Prop := ∃ v, entries = [(e.1, v)] ∧ SameValue e.2 v

variable {f : File}

section

variable (hne : boundary ≠ []) (hb : Printable boundary)

include hne hb

theorem parse_text (hn : Tame n) (h : Harmless boundary (n, .text value)) :
    parse (multipart boundary [(n, .text value)]) boundary = .ok [(nameRead n, .text value)] := by
  rw [parse_entries hne hb (.cons (textPart_of hn h.name value) .nil) (forall_mem_singleton.mpr h.absent), flatMap_singleton,
    textPart_entries hn h.name h.value]

theorem parse_file (hn : Tame n) (hf : Tame f.name) (h : Harmless boundary (n, .file f)) :
    parse (multipart boundary [(n, .file f)]) boundary =
      .ok [(nameRead n, .file ⟨⟨f.bytes, typeOrDefault f.type⟩, fileName (nameRead f.name)⟩)] := by
  obtain ⟨hfile, -, htype⟩ := h.value
  rw [parse_entries hne hb (.cons (filePart_of hn h.name hf (typeOrDefault_plain htype).1.printable) .nil)
    (forall_mem_singleton.mpr h.absent), flatMap_singleton, filePart_entries hn h.name hf hfile htype]

theorem returned_text (h : Harmless boundary (n, .text value)) :
    (∃ entries, parse (multipart boundary [(n, .text value)]) boundary = .ok entries ∧ Returned (n, .text value) entries) ↔ Safe n := by
  constructor
  · rintro ⟨entries, hparse, v, rfl, -⟩
    have htame : Tame n := (parse_tame hparse _ mem_cons_self).1
    rw [parse_text hne hb htame h] at hparse
    simp only [Except.ok.injEq, List.cons.injEq, Prod.mk.injEq, and_true] at hparse
    exact safe_of_length htame (by rw [hparse.1])
  · intro hsafe
    exact ⟨_, parse_text hne hb hsafe.tame h, .text value, by rw [hsafe.nameRead], rfl⟩

theorem returned_file (h : Harmless boundary (n, .file f)) :
    (∃ entries, parse (multipart boundary [(n, .file f)]) boundary = .ok entries ∧ Returned (n, .file f) entries) ↔ Safe n ∧ Safe f.name := by
  have hslash : fileName f.name = f.name := h.value.2.1
  constructor
  · rintro ⟨entries, hparse, v, rfl, hv⟩
    obtain ⟨htame, hall⟩ := parse_tame hparse _ mem_cons_self
    cases v with
    | text w => exact hv.elim
    | file g =>
      have hname : g.name = f.name := hv.1
      have htame' : Tame f.name := hname ▸ hall g rfl
      rw [parse_file hne hb htame htame' h] at hparse
      simp only [Except.ok.injEq, List.cons.injEq, Prod.mk.injEq, FormValue.file.injEq, and_true] at hparse
      obtain ⟨hn, rfl⟩ := hparse
      refine ⟨safe_of_length htame (by rw [hn]), safe_of_length htame' ?_⟩
      have hlen := congrArg List.length hname
      rw [fileName, length_map] at hlen
      exact hlen.le
  · rintro ⟨hsafe, hsafe'⟩
    have hparse := parse_file hne hb hsafe.tame hsafe'.tame h
    rw [hsafe.nameRead, hsafe'.nameRead, hslash] at hparse
    exact ⟨_, hparse, _, rfl, rfl, rfl⟩

end

/-- An entry comes back under its names exactly if they are of safe characters. -/
theorem names_iff (boundary : Text) (hne : boundary ≠ []) (hb : Printable boundary) (e : Entry) (h : Harmless boundary e) (body : Bytes)
    (hbody : getBody boundary [e] = .ok body) :
    (∃ entries, parse body boundary = .ok entries ∧ Returned e entries) ↔ Safe e.1 ∧ ∀ f, e.2 = .file f → Safe f.name := by
  have hmultipart : body = multipart boundary [e] := by
    rcases getBody_eq boundary [e] with ⟨he, -⟩ | ⟨hok, -⟩
    · rw [he] at hbody
      cases hbody
    · exact Except.ok.inj (hbody.symm.trans hok)
  subst hmultipart
  obtain ⟨n, v⟩ := e
  cases v with
  | text value => simp [returned_text hne hb h]
  | file f => simp [returned_file hne hb h]

/-- A tab in the name, and a file that is made of line breaks. -/
def tabEntry : Entry := (['a', '\t', 'b'], .file ⟨⟨[13, 10, 45, 45], ['t']⟩, ['d', '.', 'e']⟩)

theorem tabEntry_harmless : Harmless ['x'] tabEntry :=
  ⟨cons_ne_nil _ _, ⟨cons_ne_nil _ _, rfl, printable_of_all rfl, rfl, by decide, by decide⟩, by decide +kernel⟩

theorem getBody_ok {e : Entry} (h : (multipart boundary [e]).length < 2 ^ 31) : getBody boundary [e] = .ok (multipart boundary [e]) := by
  rcases getBody_eq boundary [e] with ⟨-, hlarge⟩ | ⟨hok, -⟩
  · omega
  · exact hok

theorem tabEntry_returned : ∃ entries, parse (multipart ['x'] [tabEntry]) ['x'] = .ok entries ∧ Returned tabEntry entries := by
  refine (names_iff ['x'] (cons_ne_nil _ _) (printable_of_all rfl) tabEntry tabEntry_harmless _ (getBody_ok (by decide +kernel))).mpr ⟨?_, ?_⟩
  · intro c hc
    simp only [tabEntry, mem_cons, not_mem_nil, or_false] at hc
    rcases hc with rfl | rfl | rfl <;> decide
  · intro f hf
    cases hf
    intro c hc
    simp only [mem_cons, not_mem_nil, or_false] at hc
    rcases hc with rfl | rfl | rfl <;> decide

/-- A text whose name has a parameter in it. -/
def injecting : Entry := ("a\"; filename=\"b".toList, .text ['v'])

def accented : Entry := (['é'], .text ['v'])

/-- The first becomes a file, and the second is read byte by byte. -/
theorem names_lost :
    getBody ['x'] [injecting] = .ok (multipart ['x'] [injecting]) ∧
    parse (multipart ['x'] [injecting]) ['x'] = .ok [(['a'], .file ⟨⟨[118], defaultType⟩, ['b']⟩)] ∧
    (¬∃ entries, parse (multipart ['x'] [injecting]) ['x'] = .ok entries ∧ Returned injecting entries) ∧
    getBody ['x'] [accented] = .ok (multipart ['x'] [accented]) ∧
    parse (multipart ['x'] [accented]) ['x'] = .ok [(['Ã', '©'], .text ['v'])] := by
  have hparse : parse (multipart ['x'] [injecting]) ['x'] = .ok [(['a'], .file ⟨⟨[118], defaultType⟩, ['b']⟩)] := by decide +kernel
  refine ⟨getBody_ok (by decide +kernel), hparse, ?_, getBody_ok (by decide +kernel), by decide +kernel⟩
  rintro ⟨entries, he, v, rfl, hv⟩
  rw [hparse] at he
  obtain ⟨hname, -⟩ := Prod.mk.inj (List.cons.inj (Except.ok.inj he)).1
  exact absurd hname (by decide +kernel)

end Aworker.Fetch.Multipart
