/-
  Aworker.Fetch.MultipartEntries — what is built is read again (lib/fetch/form.js:
  `MultipartBuilder`, `MultipartParser`).

  The builder writes a part with one or two headers for each entry. Its headers are encoded, and
  the parser makes a character of every byte of them.

  Main results: `parse_entries`, `parse_getBody`.
  Trace: `not_returned`.
-/

import Mathlib
import Aworker.Fetch.MultipartParts

namespace Aworker.Fetch.Multipart

open Aworker.Lib Aworker.Fetch.Shared List

variable {a b t n value boundary : Text} {c : Char} {e : Entry} {entries : List Entry} {p : Part} {parts : List Part}

/-! ## A character for each byte -/

/-- Characters of a header value, without those that end a parameter. -/
def Tame (t : Text) : Prop := ∀ c ∈ t, isHeaderChar c = true ∧ c ≠ ';' ∧ c ≠ '='

/-- The text that the parser makes of an encoded one. -/
def asRead (t : Text) : Text := (Utf8.encode t).map fromCharCode

theorem fromCharCode_toNat (x : UInt8) : (fromCharCode x).toNat = x.toNat := by
  have hlt := x.toNat_lt
  rw [fromCharCode, Char.toNat_ofNat, if_pos (Or.inl (by omega))]

theorem asRead_append (a b : Text) : asRead (a ++ b) = asRead a ++ asRead b := by
  rw [asRead, Utf8.encode_append, map_append, asRead, asRead]

theorem asRead_cons (hc : isPrintable c = true) (t : Text) : asRead (c :: t) = c :: asRead t := by
  have hone : asRead [c] = [c] := Printable.map_fromCharCode (by simpa [Printable] using hc)
  rw [← singleton_append, asRead_append, hone, singleton_append]

theorem mem_asRead (h : c ∈ asRead t) : c ∈ t ∨ 0x80 ≤ c.toNat ∧ c.toNat ≤ 0xff := by
  obtain ⟨x, hx, rfl⟩ := mem_map.mp h
  have hlt := x.toNat_lt
  rw [fromCharCode_toNat]
  exact (Utf8.mem_encode hx).imp_right fun hge => ⟨hge, by omega⟩

theorem asRead_length (t : Text) : (asRead t).length = (Utf8.encode t).length := length_map ..

theorem latin1_asRead (t : Text) : latin1 (asRead t) = Utf8.encode t := by
  rw [latin1, asRead, map_map]
  refine (map_congr_left fun x _ => ?_).trans (map_id _)
  rw [Function.comp_apply, fromCharCode_toNat, UInt8.ofNat_toNat, id_eq]

theorem asRead_ascii (h : ∀ c ∈ t, c.toNat < 0x80) : asRead t = t := by
  rw [asRead, Utf8.encode_ascii h]
  exact latin1_fromCharCode fun c hc => by have := h c hc; omega

theorem asRead_legal (h : ∀ c ∈ t, isHeaderChar c = true) : ∀ c ∈ asRead t, isHeaderChar c = true := by
  intro c hc
  rcases mem_asRead hc with hc | ⟨hge, hle⟩
  · exact h c hc
  · simp only [isHeaderChar, Bool.or_eq_true, Bool.and_eq_true, decide_eq_true_eq]
    exact Or.inr ⟨hge, hle⟩

theorem notMem_asRead (hc : c.toNat < 0x80) (h : c ∉ t) : c ∉ asRead t := by
  intro hm
  rcases mem_asRead hm with hm | ⟨hge, -⟩
  · exact h hm
  · omega

theorem Tame.legal (h : Tame t) : ∀ c ∈ t, isHeaderChar c = true := fun c hc => (h c hc).1

theorem Tame.semicolon (h : Tame t) : ';' ∉ t := fun hm => (h _ hm).2.1 rfl

theorem Tame.equals (h : Tame t) : '=' ∉ t := fun hm => (h _ hm).2.2 rfl

/-! ## The headers of an entry -/

theorem legal_space (h : ∀ c ∈ t, isHeaderChar c = true) : ∀ c ∈ ' ' :: t, isHeaderChar c = true := forall_mem_cons.mpr ⟨rfl, h⟩

/-- A header as the builder writes it and the parser reads it. -/
def writtenHeader (key value : Text) (hkey : legalName key = true) (hvalue : ∀ c ∈ value, isHeaderChar c = true) : Header where
  key := key
  value := ' ' :: asRead value
  token := hkey
  legal := legalValue_trimmed (all_eq_true.mpr (legal_space (asRead_legal hvalue)))
  oneByte c hc := (isHeaderChar_one (legal_space (asRead_legal hvalue) c hc)).1
  oneLine := ⟨fun hm => (isHeaderChar_one (legal_space (asRead_legal hvalue) _ hm)).2.1 rfl,
    fun hm => (isHeaderChar_one (legal_space (asRead_legal hvalue) _ hm)).2.2 rfl⟩

theorem writtenHeader_line {key : Text} (hkey : legalName key = true) (hvalue : ∀ c ∈ value, isHeaderChar c = true) :
    (writtenHeader key value hkey hvalue).line = Utf8.encode (key ++ ": ".toList ++ value) := by
  have hpre : Printable (key ++ ": ".toList) := Printable.append (fun _ hc => isTokenChar_isPrintable (mem_token hkey hc)) (printable_of_all rfl)
  rw [Utf8.encode_append, hpre.encode, ← latin1_asRead value, ← latin1, latin1, latin1, ← map_append, append_assoc]
  rfl

theorem encode_headerText (headers : HeaderList) :
    Utf8.encode (headerText headers) = headers.flatMap (fun h => Utf8.encode (h.1 ++ ": ".toList ++ h.2) ++ [CR, LF]) ++ [CR, LF] := by
  rw [headerText, encode_line]
  congr 1
  induction headers with
  | nil => rfl
  | cons h headers ih => rw [flatMap_cons, Utf8.encode_append, ih, encode_line, flatMap_cons]

def fieldValue (a : Text) : Text := formDataType ++ ';' :: (' ' :: (nameKey ++ '=' :: quoted a))

def fileValue (a b : Text) : Text :=
  formDataType ++ ';' :: (' ' :: (nameKey ++ '=' :: quoted a) ++ ';' :: (' ' :: (filenameKey ++ '=' :: quoted b)))

theorem asRead_printable (h : Printable t) : asRead t = t := h.map_fromCharCode

theorem asRead_quoted (a : Text) : asRead (quoted a) = quoted (asRead a) := by
  rw [quoted, asRead_cons rfl, asRead_append, asRead_printable (t := ['"']) (printable_of_all rfl), quoted]

theorem asRead_param (hkey : ParamKey b) (a : Text) : asRead (b ++ '=' :: quoted a) = b ++ '=' :: quoted (asRead a) := by
  rw [asRead_append, asRead_printable hkey.printable, asRead_cons rfl, asRead_quoted]

theorem asRead_fieldValue (a : Text) : asRead (fieldValue a) = fieldValue (asRead a) := by
  rw [fieldValue, asRead_append, asRead_printable (printable_of_all rfl), asRead_cons rfl, asRead_cons rfl, asRead_param nameKey_ok, fieldValue]

theorem asRead_fileValue (a b : Text) : asRead (fileValue a b) = fileValue (asRead a) (asRead b) := by
  rw [fileValue, asRead_append, asRead_printable (printable_of_all rfl), asRead_cons rfl, asRead_append, asRead_cons rfl, asRead_param nameKey_ok,
    asRead_cons rfl, asRead_cons rfl, asRead_param filenameKey_ok, fileValue]

theorem printable_legal (h : Printable t) : ∀ c ∈ t, isHeaderChar c = true := all_eq_true.mp h.legalValue

theorem legal_param (hkey : ParamKey b) (h : ∀ c ∈ a, isHeaderChar c = true) : ∀ c ∈ ';' :: ' ' :: (b ++ '=' :: quoted a), isHeaderChar c = true := by
  have hb := printable_legal hkey.printable
  have hquote : ∀ c ∈ ['"'], isHeaderChar c = true := forall_mem_singleton.mpr rfl
  rw [quoted, forall_mem_cons, forall_mem_cons, forall_mem_append, forall_mem_cons, forall_mem_cons, forall_mem_append]
  exact ⟨rfl, rfl, hb, rfl, rfl, h, hquote⟩

theorem legal_fieldValue (h : ∀ c ∈ a, isHeaderChar c = true) : ∀ c ∈ fieldValue a, isHeaderChar c = true :=
  forall_mem_append.mpr ⟨printable_legal (printable_of_all rfl), legal_param nameKey_ok h⟩

theorem legal_fileValue (ha : ∀ c ∈ a, isHeaderChar c = true) (hb : ∀ c ∈ b, isHeaderChar c = true) : ∀ c ∈ fileValue a b, isHeaderChar c = true := by
  refine forall_mem_append.mpr ⟨printable_legal (printable_of_all rfl), ?_⟩
  rw [← cons_append]
  exact forall_mem_append.mpr ⟨legal_param nameKey_ok ha, legal_param filenameKey_ok hb⟩

theorem trimmed_formData (pre a : Text) : trimmed (' ' :: (formDataType ++ pre ++ quoted a)) = formDataType ++ pre ++ quoted a := by
  have hne : formDataType ≠ [] := by decide
  refine trimmed_quoted (fun h => hne (append_eq_nil_iff.mp h).1) (fun c hc => ?_) a
  rw [head?_append_of_ne_nil _ hne] at hc
  obtain rfl : 'f' = c := Option.some.inj hc
  rfl

theorem trimmed_fieldValue (a : Text) : trimmed (' ' :: fieldValue a) = fieldValue a := by
  have hvalue : fieldValue a = formDataType ++ (';' :: ' ' :: nameKey ++ ['=']) ++ quoted a := by simp [fieldValue]
  rw [hvalue, trimmed_formData]

theorem trimmed_fileValue (a b : Text) : trimmed (' ' :: fileValue a b) = fileValue a b := by
  have hvalue : fileValue a b = formDataType ++ (';' :: ' ' :: nameKey ++ '=' :: quoted a ++ ';' :: ' ' :: filenameKey ++ ['=']) ++ quoted b := by
    simp [fileValue]
  rw [hvalue, trimmed_formData]

/-! ## Parts of entries -/

structure PartOf (p : Part) (e : Entry) : Prop where
  padding : p.padding = []
  content : p.content = entryContent e
  headers : linesBytes p.headers = (entryHeaders e).flatMap fun h => Utf8.encode (h.1 ++ ": ".toList ++ h.2) ++ [CR, LF]
  two : p.headers.length ≤ 2

theorem PartOf.bytes (h : PartOf p e) : p.bytes = [CR, LF] ++ part e := by
  simp only [Part.bytes, h.padding, h.headers, h.content, part, encode_headerText, nil_append]

theorem rest_parts (h : List.Forall₂ PartOf parts entries) :
    rest boundary entries = [CR, LF] ++ Utf8.encode (dashes ++ boundary) ++ afterDelimiter boundary [] parts := by
  induction h with
  | nil => rw [rest, afterDelimiter, append_nil]
  | cons hp _ ih => simp only [rest, afterDelimiter, hp.bytes, ih, append_assoc]

theorem multipart_parts (h : List.Forall₂ PartOf parts (e :: entries)) : multipart boundary (e :: entries) = wholeBody boundary parts [] := by
  cases h with
  | cons hp h => simp only [multipart, wholeBody, afterDelimiter, hp.bytes, rest_parts h, append_assoc]

theorem left_parts (h : List.Forall₂ PartOf parts entries) (habsent : ∀ e ∈ entries, ¬Utf8.encode (dashes ++ boundary) <:+: entryContent e) :
    ∀ p ∈ parts, ¬Utf8.encode (dashes ++ boundary) <:+: left p.headers p.content := by
  induction h with
  | nil => exact fun p hp => absurd hp not_mem_nil
  | cons hp _ ih =>
    obtain ⟨he, hrest⟩ := forall_mem_cons.mp habsent
    refine forall_mem_cons.mpr ⟨?_, ih hrest⟩
    rw [left, if_pos hp.two, hp.content]
    exact he

theorem parse_entries (hne : boundary ≠ []) (hb : Printable boundary) (h : List.Forall₂ PartOf parts (e :: entries))
    (habsent : ∀ e' ∈ e :: entries, ¬Utf8.encode (dashes ++ boundary) <:+: entryContent e') :
    parse (multipart boundary (e :: entries)) boundary = .ok (parts.flatMap Part.entries) := by
  have hnil : ¬Utf8.encode (dashes ++ boundary) <:+: [] := by
    rw [(dashes_printable hb).encode]
    simp [dashes]
  rw [multipart_parts h, parse_body hne hb (left_parts h habsent) hnil]

/-! ## One entry -/

theorem unquote_quoted_cases (a : Text) : unquote (quoted a) = a ∧ '"' ∉ a ∨ unquote (quoted a) = quoted a := by
  by_cases h : '"' ∈ a
  · refine Or.inr ?_
    rw [quoted, unquote, if_neg fun hq => hq.2 (by rwa [dropLast_concat])]
  · exact Or.inl ⟨unquote_quoted h, h⟩

def nameRead (n : Text) : Text := unquote (quoted (asRead n))

theorem nameRead_ne_nil (h : n ≠ []) : nameRead n ≠ [] := by
  rcases unquote_quoted_cases (asRead n) with ⟨he, -⟩ | he
  · rw [nameRead, he]
    intro hnil
    have hlen := Utf8.length_le_encode n
    rw [← asRead_length, hnil, length_nil, Nat.le_zero] at hlen
    exact h (eq_nil_of_length_eq_zero hlen)
  · rw [nameRead, he, quoted]
    exact cons_ne_nil _ _

theorem Tame.asRead (h : Tame t) : ';' ∉ asRead t ∧ '=' ∉ asRead t :=
  ⟨notMem_asRead (by decide) h.semicolon, notMem_asRead (by decide) h.equals⟩

theorem contentDisposition_legal : legalName contentDisposition = true := rfl

theorem contentType_legal : legalName contentType = true := rfl

def textPart (h : Tame n) (hne : n ≠ []) (content : Bytes) : Part where
  padding := []
  headers := [writtenHeader contentDisposition (fieldValue n) contentDisposition_legal (legal_fieldValue h.legal)]
  content := content
  disposition := fieldValue (Multipart.asRead n)
  name := nameRead n
  blank := fun _ hb => absurd hb not_mem_nil
  only := by
    show [trimmed (' ' :: Multipart.asRead (fieldValue n))] = _
    rw [asRead_fieldValue, trimmed_fieldValue]
  named := by
    rw [fieldValue, params_field h.asRead.1 h.asRead.2]
    exact (paramsGet_field _).1
  nonempty := nameRead_ne_nil hne

def filePart (ha : Tame a) (hb : Tame b) (hne : a ≠ []) {type : Text} (htype : Printable type) (content : Bytes) : Part where
  padding := []
  headers := [writtenHeader contentDisposition (fileValue a b) contentDisposition_legal (legal_fileValue ha.legal hb.legal),
    writtenHeader contentType type contentType_legal (printable_legal htype)]
  content := content
  disposition := fileValue (asRead a) (asRead b)
  name := nameRead a
  blank := fun _ hb => absurd hb not_mem_nil
  only := by
    show [trimmed (' ' :: asRead (fileValue a b))] = _
    rw [asRead_fileValue, trimmed_fileValue]
  named := by
    rw [fileValue, params_file ha.asRead.1 ha.asRead.2 hb.asRead.1 hb.asRead.2]
    exact (paramsGet_file _ _).1
  nonempty := nameRead_ne_nil hne

section

variable (hn : Tame n) (hname : n ≠ [])

include hn hname

theorem textPart_of (value : Text) : PartOf (textPart hn hname (Utf8.encode value)) (n, .text value) where
  padding := rfl
  content := rfl
  headers := by
    rw [entryHeaders, fieldHeaders_eq, textPart, linesBytes, flatMap_singleton, flatMap_singleton, writtenHeader_line, fieldValue]
  two := by simp [textPart]

theorem textPart_entries (hvalue : value.head? ≠ some (Char.ofNat 0xFEFF)) :
    (textPart hn hname (Utf8.encode value)).entries = [(nameRead n, .text value)] := by
  rw [Part.entries_eq (textPart_of hn hname value).two]
  simp only [textPart, fieldValue, params_field hn.asRead.1 hn.asRead.2, entryValue, (paramsGet_field _).2, decodeText_encode hvalue]

variable {f : File}

theorem filePart_of (hf : Tame f.name) (htype : Printable (typeOrDefault f.type)) : PartOf (filePart hn hf hname htype f.bytes) (n, .file f) where
  padding := rfl
  content := rfl
  headers := by
    simp only [entryHeaders, fileHeaders_eq, filePart, linesBytes, flatMap_cons, flatMap_nil, writtenHeader_line, fileValue]
  two := by simp [filePart]

theorem filePart_type (hf : Tame f.name) (htype : PlainType (typeOrDefault f.type)) :
    dataGet (collected (filePart hn hf hname htype.printable f.bytes).headers) (toLowerCase contentType) = some (typeOrDefault f.type) := by
  have htrim : trimmed (' ' :: asRead (typeOrDefault f.type)) = typeOrDefault f.type := by
    rw [asRead_printable htype.printable, trimmed, trim_cons (by decide)]
    exact htype.printable.trimmed htype.first htype.last
  exact ((dataGet_dataSet typeKey_ne_setCookie _ _ _).trans (if_pos rfl)).trans (congrArg some htrim)

theorem filePart_entries (hf : Tame f.name) (hfile : f.name ≠ []) (htype : PlainType f.type) :
    (filePart hn hf hname (typeOrDefault_plain htype).1.printable f.bytes).entries =
      [(nameRead n, .file ⟨⟨f.bytes, typeOrDefault f.type⟩, fileName (nameRead f.name)⟩)] := by
  obtain ⟨hplain, hne⟩ := typeOrDefault_plain htype
  obtain ⟨c, rest, hread⟩ := exists_cons_of_ne_nil (nameRead_ne_nil hfile)
  obtain ⟨t, type, ht⟩ := exists_cons_of_ne_nil hne
  have htypeGet := filePart_type hn hname hf hplain
  rw [Part.entries_eq (filePart_of hn hname hf hplain.printable).two, entryValue, htypeGet]
  simp only [filePart, fileValue, params_file hn.asRead.1 hn.asRead.2 hf.asRead.1 hf.asRead.2, (paramsGet_file _ _).2]
  rw [← nameRead, hread, ht]
  simp only [parseFormDataValue, if_neg (cons_ne_nil c rest), File.new, Blob.new, normalizedType_plain (ht ▸ hplain)]

end

/-! ## All entries -/

theorem Plain.tame (h : Plain n) : Tame n := fun c hc =>
  ⟨printable_legal h.printable c hc, fun he => h.semicolon (he ▸ hc), fun he => h.equals (he ▸ hc)⟩

theorem Plain.nameRead (h : Plain n) : nameRead n = n := by
  rw [Multipart.nameRead, asRead_printable h.printable, unquote_quoted h.quote]

theorem Sendable.part (h : Sendable boundary e) : ∃ p, PartOf p e ∧ p.entries = [received e] := by
  obtain ⟨n, v⟩ := e
  have hn : Plain n := h.name
  cases v with
  | text value =>
    refine ⟨_, textPart_of hn.tame hn.nonempty value, ?_⟩
    rw [textPart_entries hn.tame hn.nonempty h.value, hn.nameRead, received]
  | file f =>
    obtain ⟨hf, htype⟩ := h.value
    refine ⟨_, filePart_of hn.tame hn.nonempty hf.tame (typeOrDefault_plain htype).1.printable, ?_⟩
    rw [filePart_entries hn.tame hn.nonempty hf.tame hf.nonempty htype, hn.nameRead, hf.nameRead, received]

theorem exists_parts (h : ∀ e ∈ entries, Sendable boundary e) :
    ∃ parts, List.Forall₂ PartOf parts entries ∧ parts.flatMap Part.entries = entries.map received := by
  induction entries with
  | nil => exact ⟨[], .nil, rfl⟩
  | cons e entries ih =>
    obtain ⟨he, hrest⟩ := forall_mem_cons.mp h
    obtain ⟨p, hp, hentries⟩ := he.part
    obtain ⟨parts, hparts, hmap⟩ := ih hrest
    exact ⟨p :: parts, .cons hp hparts, by rw [flatMap_cons, hentries, hmap, map_cons, singleton_append]⟩

theorem parse_multipart (hb : Printable boundary) (hne : boundary ≠ []) (h : ∀ e ∈ entries, Sendable boundary e) :
    parse (multipart boundary entries) boundary = .ok (entries.map received) := by
  cases entries with
  | nil =>
    obtain ⟨text, hread⟩ := reads_nothing hb (multipart boundary [])
    rw [parse, if_neg hne, hread (prefix_refl _)]
    rfl
  | cons e entries =>
    obtain ⟨parts, hparts, hmap⟩ := exists_parts h
    rw [parse_entries hne hb hparts fun e' he => (h e' he).absent, hmap]

/-- A body parses to its entries, or there are too many bytes for it. -/
theorem parse_getBody (boundary : Text) (hne : boundary ≠ []) (hb : Printable boundary) (entries : List Entry)
    (h : ∀ e ∈ entries, Sendable boundary e) :
    getBody boundary entries = .error .maximumSize ∧ 2 ^ 31 ≤ (multipart boundary entries).length ∨
      ∃ body, getBody boundary entries = .ok body ∧ parse body boundary = .ok (entries.map received) := by
  rcases getBody_eq boundary entries with hlarge | ⟨hbody, -⟩
  · exact Or.inl hlarge
  · exact Or.inr ⟨_, hbody, parse_multipart hb hne h⟩

/-- A text with a piece of the delimiter, and two files, one of them empty. -/
def sampleEntries : List Entry :=
  [(['a'], .text ['-', '-', '\r', '\n', 'é']), (['f'], .file ⟨⟨[0, 13, 10, 45, 45], []⟩, ['b', '.', 'c']⟩), (['f'], .file ⟨⟨[], ['t']⟩, ['d']⟩)]

theorem sampleEntries_sendable : ∀ e ∈ sampleEntries, Sendable sampleBoundary e := by
  have plain {c : Char} {name : Text} (h : (c :: name).all isPrintable = true) (hq : '"' ∉ c :: name) (hs : ';' ∉ c :: name)
      (he : '=' ∉ c :: name) : Plain (c :: name) := ⟨cons_ne_nil c name, printable_of_all h, hq, hs, he⟩
  refine forall_mem_cons.mpr ⟨?_, forall_mem_cons.mpr ⟨?_, forall_mem_cons.mpr ⟨?_, by simp⟩⟩⟩
  · exact ⟨plain rfl (by simp) (by simp) (by simp), by decide +kernel, by decide +kernel⟩
  · exact ⟨plain rfl (by simp) (by simp) (by simp),
      ⟨plain rfl (by simp) (by simp) (by simp), ⟨printable_of_all rfl, rfl, by simp, by simp⟩⟩, by decide +kernel⟩
  · exact ⟨plain rfl (by simp) (by simp) (by simp),
      ⟨plain rfl (by simp) (by simp) (by simp), ⟨printable_of_all rfl, rfl, by decide, by decide⟩⟩, by decide +kernel⟩

theorem sampleEntries_parse :
    ∃ body, getBody sampleBoundary sampleEntries = .ok body ∧ parse body sampleBoundary = .ok (sampleEntries.map received) := by
  rcases parse_getBody sampleBoundary (cons_ne_nil _ _) (printable_of_all rfl) sampleEntries sampleEntries_sendable with ⟨-, hlarge⟩ | hbody
  · exact absurd hlarge (by decide +kernel)
  · exact hbody

theorem getBody_tooLarge {f : File} (hf : maxSize < f.bytes.length) (boundary name : Text) : getBody boundary [(name, .file f)] = .error .maximumSize := by
  rcases getBody_eq boundary [(name, .file f)] with ⟨he, -⟩ | ⟨-, hle⟩
  · exact he
  · have hpart : f.bytes.length ≤ (multipart boundary [(name, .file f)]).length := by
      simp only [multipart, part, entryContent, length_append]
      omega
    omega

def slashEntry : Entry := (['f'], .file ⟨⟨[1], ['t']⟩, ['a', '/', 'b']⟩)

theorem slashEntry_sendable : Sendable ['x'] slashEntry :=
  ⟨⟨by simp [slashEntry], printable_of_all rfl, by simp [slashEntry], by simp [slashEntry], by simp [slashEntry]⟩,
    ⟨⟨by simp, printable_of_all rfl, by simp, by simp, by simp⟩, ⟨printable_of_all rfl, rfl, by decide, by decide⟩⟩,
    by decide +kernel⟩

/-- A name that no `File` has; more bytes than a buffer may have; no boundary. -/
theorem not_returned :
    (∃ body, getBody ['x'] [slashEntry] = .ok body ∧ parse body ['x'] = .ok [(['f'], .file ⟨⟨[1], ['t']⟩, ['a', ':', 'b']⟩)]) ∧
    getBody ['x'] [(['f'], .file ⟨⟨List.replicate (2 ^ 32) 0, ['t']⟩, ['a']⟩)] = .error .maximumSize ∧
    ∃ e, ∀ body, parse body [] = .error e := by
  refine ⟨?_, getBody_tooLarge ?_ _ _, _, fun _ => rfl⟩
  · rcases getBody_eq ['x'] [slashEntry] with ⟨-, hlarge⟩ | ⟨hbody, -⟩
    · exact absurd hlarge (by decide)
    · exact ⟨_, hbody, parse_multipart (printable_of_all rfl) (cons_ne_nil _ _) (by simpa using slashEntry_sendable)⟩
  · rw [length_replicate]
    decide

end Aworker.Fetch.Multipart
