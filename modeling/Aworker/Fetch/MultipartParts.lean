/-
  Aworker.Fetch.MultipartParts — bodies with parts of any number of headers, as the parser reads
  them (lib/fetch/form.js: `MultipartParser.parse`).

  The parser counts lines: an empty line after the first one ends the headers, and so does the end
  of the third line, whatever it holds. A body starts with the delimiter; there may be blanks after
  each one and anything after the last. The delimiter itself is in no header and no content.

  Main results: `parse_body`, `parts_iff`.
  Trace: `three_headers`.
-/

import Mathlib
import Aworker.Fetch.Multipart

namespace Aworker.Fetch.Multipart

open Aworker.Lib Aworker.Fetch.Shared List

/-! ## Parts -/

/-- A line of the headers of a part: a name, and what stands after the colon. -/
structure Header where
  key : Text
  value : Text
  token : legalName key = true
  legal : legalValue (trimmed value) = true
  oneByte : ∀ c ∈ value, c.toNat < 256
  oneLine : '\r' ∉ value ∧ '\n' ∉ value

def Header.text (h : Header) : Text := h.key ++ ':' :: h.value

/-- One byte for each character. -/
def latin1 (t : Text) : Bytes := t.map fun c => UInt8.ofNat c.toNat

def Header.line (h : Header) : Bytes := latin1 h.text

def Header.isDisposition (h : Header) : Bool := toLowerCase h.key = toLowerCase contentDisposition

structure Part where
  /-- blanks after the delimiter -/
  padding : Bytes
  headers : List Header
  content : Bytes
  /-- the value of the only `Content-Disposition` -/
  disposition : Text
  name : Text
  blank : ∀ b ∈ padding, b = 0x20 ∨ b = 0x09
  only : (headers.filter Header.isDisposition).map (fun h => trimmed h.value) = [disposition]
  named : paramsGet (getHeaderValueParams disposition) nameKey = some name
  nonempty : name ≠ []

def linesBytes (headers : List Header) : Bytes := headers.flatMap fun h => h.line ++ [CR, LF]

def linesText (headers : List Header) : Text := headers.flatMap fun h => h.text ++ crlf

def Part.bytes (p : Part) : Bytes := p.padding ++ [CR, LF] ++ (linesBytes p.headers ++ [CR, LF] ++ p.content)

/-- The delimiter is nowhere in the part. -/
structure WellFormed (boundary : Text) (p : Part) : Prop where
  headers : ∀ h ∈ p.headers, ¬Utf8.encode (dashes ++ boundary) <:+: h.line
  content : ¬Utf8.encode (dashes ++ boundary) <:+: p.content

def afterDelimiter (boundary : Text) (epilogue : Bytes) : List Part → Bytes
  | [] => Utf8.encode dashes ++ epilogue
  | p :: parts => p.bytes ++ [CR, LF] ++ Utf8.encode (dashes ++ boundary) ++ afterDelimiter boundary epilogue parts

def wholeBody (boundary : Text) (parts : List Part) (epilogue : Bytes) : Bytes :=
  Utf8.encode (dashes ++ boundary) ++ afterDelimiter boundary epilogue parts

/-! ## What the parser makes of a part -/

/-- The bytes that are read before the contents. -/
def swallowed (headers : List Header) : Bytes :=
  if headers.length ≤ 2 then linesBytes headers ++ [CR, LF] else linesBytes (headers.take 3)

/-- What is taken for the contents. -/
def left (headers : List Header) (content : Bytes) : Bytes :=
  if headers.length ≤ 2 then content else linesBytes (headers.drop 3) ++ [CR, LF] ++ content

def swallowedText (headers : List Header) : Text :=
  if headers.length ≤ 2 then linesText headers ++ crlf else linesText (headers.take 3)

def collected (headers : List Header) : HeaderList :=
  headers.foldl (fun data h => dataSet data (toLowerCase h.key) (trimmed h.value)) []

/-- The value of an entry, by its disposition and the other headers. -/
def entryValue (data : HeaderList) (params : List (Text × Text)) (content : Bytes) : FormValue :=
  match paramsGet params filenameKey with
  | some (c :: filename) =>
    let type := match dataGet data (toLowerCase contentType) with
      | some (t :: type) => t :: type
      | _ => defaultType
    parseFormDataValue (Blob.new content type) (c :: filename)
  | _ => .text (Encoding.decodeText content)

/-- The entry for a part, if it has a name. -/
def entryOf (data : HeaderList) (content : Bytes) : List Entry :=
  let params := getHeaderValueParams ((dataGet data (toLowerCase contentDisposition)).getD [])
  match paramsGet params nameKey with
  | none => []
  | some name => if name = [] then [] else [(name, entryValue data params content)]

def Part.entries (p : Part) : List Entry := entryOf (collected (p.headers.take 3)) (left p.headers p.content)

/-! ## Lines -/

variable {h : Header} {hs : List Header} {boundary t : Text} {body seg : Bytes} {i k fileStart : Nat} {formData : List Entry}

variable {c : Char}

theorem isTokenChar_isPrintable (hc : isTokenChar c = true) : isPrintable c = true := by
  simp only [isTokenChar, Bool.or_eq_true, Bool.and_eq_true, decide_eq_true_eq, beq_iff_eq] at hc
  rw [isPrintable_iff]
  omega

theorem Header.key_printable (h : Header) : Printable h.key := fun _ hc => isTokenChar_isPrintable (mem_token h.token hc)

theorem isHeaderChar_one (h : isHeaderChar c = true) : c.toNat < 256 ∧ c ≠ '\r' ∧ c ≠ '\n' := by
  refine ⟨?_, ?_, ?_⟩
  · simp only [isHeaderChar, Bool.or_eq_true, Bool.and_eq_true, decide_eq_true_eq, beq_iff_eq] at h
    omega
  · rintro rfl
    exact absurd h (by decide)
  · rintro rfl
    exact absurd h (by decide)

theorem Header.mem_text (hc : c ∈ h.text) : c.toNat < 256 ∧ c ≠ '\r' ∧ c ≠ '\n' := by
  rcases mem_append.mp hc with hc | hc
  · exact isHeaderChar_one (all_eq_true.mp h.key_printable.legalValue c hc)
  · rcases mem_cons.mp hc with rfl | hc
    · exact ⟨by decide, by decide, by decide⟩
    · exact ⟨h.oneByte c hc, fun he => h.oneLine.1 (he ▸ hc), fun he => h.oneLine.2 (he ▸ hc)⟩

theorem byte_inj {d : Char} (hc : c.toNat < 256) (hd : d.toNat < 256) (h : UInt8.ofNat c.toNat = UInt8.ofNat d.toNat) : c = d := by
  have hn := congrArg UInt8.toNat h
  rw [Utf8.toNat_ofNat hc, Utf8.toNat_ofNat hd] at hn
  exact Char.toNat_inj.mp hn

theorem Header.notMem_line (hc : c.toNat < 256) (hm : c ∉ h.text) : UInt8.ofNat c.toNat ∉ h.line := by
  intro hin
  obtain ⟨d, hd, he⟩ := mem_map.mp hin
  exact hm (byte_inj (Header.mem_text hd).1 hc he ▸ hd)

theorem Header.lf (h : Header) : LF ∉ h.line := Header.notMem_line (c := '\n') (by decide) fun hm => (Header.mem_text hm).2.2 rfl

theorem Header.cr (h : Header) : CR ∉ h.line := Header.notMem_line (c := '\r') (by decide) fun hm => (Header.mem_text hm).2.1 rfl

variable {t : Text}

theorem latin1_fromCharCode (ht : ∀ c ∈ t, c.toNat < 256) : (latin1 t).map fromCharCode = t := by
  rw [latin1, map_map]
  refine (map_congr_left fun c hc => ?_).trans (map_id t)
  rw [Function.comp_apply, fromCharCode, Utf8.toNat_ofNat (ht c hc), Char.ofNat_toNat, id_eq]

theorem Header.line_text (h : Header) : h.line.map fromCharCode = h.text := latin1_fromCharCode fun _ hc => (Header.mem_text hc).1

theorem Header.line_ne_nil (h : Header) : h.line ≠ [] := by simp [Header.line, latin1, Header.text]

variable {st : ParseState} {line : Bytes}

theorem reads_rawLine {st' : ParseState} {fileStart' : Nat} (hlf : LF ∉ line) (hst : st.inHeaders = true)
    (hend : Reads boundary body (i + line.length) [CR, LF] ⟨t ++ line.map fromCharCode, k, st, fileStart, formData⟩
      ⟨t ++ line.map fromCharCode ++ crlf, k, st', fileStart', formData⟩) :
    Reads boundary body i (line ++ [CR, LF]) ⟨t, k, st, fileStart, formData⟩ ⟨t ++ (line.map fromCharCode ++ crlf), k, st', fileStart', formData⟩ := by
  have hread : Reads boundary body i line ⟨t, k, st, fileStart, formData⟩ ⟨t ++ line.map fromCharCode, k, st, fileStart, formData⟩ :=
    reads_line hlf hst
  rw [← append_assoc]
  exact hread.append hend

theorem reads_secondLine (hlf : LF ∉ line) :
    Reads boundary body i (line ++ [CR, LF] ++ [CR, LF]) ⟨[], k, .first, fileStart, formData⟩
      ⟨line.map fromCharCode ++ crlf ++ crlf, k, .content, i + (line ++ [CR, LF] ++ [CR, LF]).length, formData⟩ := by
  intro hpre
  -- the empty line is seen from the end of the first
  obtain ⟨-, hblank⟩ := prefix_drop_append.mp hpre
  obtain ⟨hcr, hblank⟩ := prefix_drop_cons.mp hblank
  obtain ⟨hlf', -⟩ := prefix_drop_cons.mp hblank
  rw [length_crlf] at hcr hlf'
  rw [length_crlf]
  exact ((reads_rawLine (t := []) hlf rfl (reads_crlf_first (if_pos ⟨hcr, hlf'⟩))).append reads_crlf_blank) hpre

theorem reads_thirdLine {l1 l2 l3 : Bytes} (h1 : LF ∉ l1) (h2 : LF ∉ l2) (h3 : LF ∉ l3) (hne : l2 ≠ []) (hcr2 : CR ∉ l2) :
    Reads boundary body i (l1 ++ [CR, LF] ++ (l2 ++ [CR, LF]) ++ (l3 ++ [CR, LF])) ⟨[], k, .first, fileStart, formData⟩
      ⟨l1.map fromCharCode ++ crlf ++ (l2.map fromCharCode ++ crlf) ++ (l3.map fromCharCode ++ crlf), k, .content,
        i + (l1 ++ [CR, LF] ++ (l2 ++ [CR, LF]) ++ (l3 ++ [CR, LF])).length, formData⟩ := by
  intro hpre
  have hnext : ¬(body[i + l1.length + 2]? = some CR ∧ body[i + l1.length + 3]? = some LF) := by
    rintro ⟨hcr, -⟩
    obtain ⟨hpre, -⟩ := prefix_drop_append.mp hpre
    obtain ⟨-, hpre⟩ := prefix_drop_append.mp hpre
    obtain ⟨b, line, rfl⟩ := exists_cons_of_ne_nil hne
    rw [cons_append, length_crlf] at hpre
    obtain ⟨hb, -⟩ := prefix_drop_cons.mp hpre
    rw [Option.some.inj (hb.symm.trans hcr)] at hcr2
    exact hcr2 mem_cons_self
  have hend : i + (l1 ++ [CR, LF] ++ (l2 ++ [CR, LF]) ++ (l3 ++ [CR, LF])).length =
      i + (l1 ++ [CR, LF] ++ (l2 ++ [CR, LF])).length + l3.length + 2 := by
    rw [length_append, ← Nat.add_assoc, length_crlf]
  rw [hend]
  exact (((reads_rawLine (t := []) h1 rfl (reads_crlf_first (if_neg hnext))).append (reads_rawLine h2 rfl reads_crlf_next)).append
    (reads_rawLine h3 rfl reads_crlf_blank)) hpre

theorem linesBytes_cons (h : Header) (hs : List Header) : linesBytes (h :: hs) = h.line ++ [CR, LF] ++ linesBytes hs := flatMap_cons

theorem linesText_cons (h : Header) (hs : List Header) : linesText (h :: hs) = h.text ++ crlf ++ linesText hs := flatMap_cons

theorem reads_swallowed (hne : hs ≠ []) :
    Reads boundary body i (swallowed hs) ⟨[], k, .first, fileStart, formData⟩
      ⟨swallowedText hs, k, .content, i + (swallowed hs).length, formData⟩ := by
  match hs, hne with
  | [h1], _ =>
    have hbytes : swallowed [h1] = h1.line ++ [CR, LF] ++ [CR, LF] := by simp [swallowed, linesBytes]
    have htext : swallowedText [h1] = h1.line.map fromCharCode ++ crlf ++ crlf := by simp [swallowedText, linesText, Header.line_text]
    rw [hbytes, htext]
    exact reads_secondLine h1.lf
  | [h1, h2], _ =>
    have hbytes : swallowed [h1, h2] = h1.line ++ [CR, LF] ++ (h2.line ++ [CR, LF]) ++ ([] ++ [CR, LF]) := by simp [swallowed, linesBytes]
    have htext : swallowedText [h1, h2] = h1.line.map fromCharCode ++ crlf ++ (h2.line.map fromCharCode ++ crlf) ++ (([] : Bytes).map fromCharCode ++ crlf) := by
      simp [swallowedText, linesText, Header.line_text]
    rw [hbytes, htext]
    exact reads_thirdLine h1.lf h2.lf not_mem_nil h2.line_ne_nil h2.cr
  | h1 :: h2 :: h3 :: rest, _ =>
    have hbytes : swallowed (h1 :: h2 :: h3 :: rest) = h1.line ++ [CR, LF] ++ (h2.line ++ [CR, LF]) ++ (h3.line ++ [CR, LF]) := by
      simp [swallowed, linesBytes]
    have htext : swallowedText (h1 :: h2 :: h3 :: rest) =
        h1.line.map fromCharCode ++ crlf ++ (h2.line.map fromCharCode ++ crlf) ++ (h3.line.map fromCharCode ++ crlf) := by
      simp [swallowedText, linesText, Header.line_text]
    rw [hbytes, htext]
    exact reads_thirdLine h1.lf h2.lf h3.lf h2.line_ne_nil h2.cr

theorem swallowed_left (hs : List Header) (content : Bytes) : swallowed hs ++ left hs content = linesBytes hs ++ [CR, LF] ++ content := by
  unfold swallowed left
  split
  · rfl
  · have hsplit : linesBytes (hs.take 3) ++ linesBytes (hs.drop 3) = linesBytes hs := by
      rw [linesBytes, linesBytes, ← flatMap_append, take_append_drop, ← linesBytes]
    rw [← hsplit]
    simp only [append_assoc]

/-! ## What the headers say -/

theorem setRawHeader_header (h : Header) (headers : HeaderList) :
    setRawHeader headers h.text = .ok (dataSet headers (toLowerCase h.key) (trimmed h.value)) := by
  have hcontains : h.text.contains ':' = true := by simp [Header.text]
  have hstop : ∀ c ∈ h.key, (c != ':') = true := fun c hc => by
    rw [bne_iff_ne]
    rintro rfl
    exact colon_notMem_token h.token hc
  have htake : h.text.takeWhile (· != ':') = h.key := by
    rw [Header.text, takeWhile_append_of_pos hstop]
    simp
  have hdrop : h.text.dropWhile (· != ':') = ':' :: h.value := by
    rw [Header.text, dropWhile_append_of_pos hstop]
    simp
  rw [setRawHeader, if_pos hcontains, htake, hdrop]
  simp only [drop_succ_cons, drop_zero, Deep.set, validateName, legalName_toLowerCase h.token, validateValue, h.legal]
  rfl

theorem splitLines_lines (hs : List Header) (rest : Text) : splitLines (linesText hs ++ rest) = hs.map Header.text ++ splitLines rest := by
  induction hs with
  | nil => rfl
  | cons h hs ih =>
    have hcr : '\r' ∉ h.text := fun hm => (Header.mem_text hm).2.1 rfl
    rw [linesText_cons, append_assoc, splitLines_append hcr, ih, map_cons, cons_append]

theorem foldlM_lines (hs : List Header) (data : HeaderList) {rest : List Text} (hrest : ∀ r ∈ rest, r = []) :
    (hs.map Header.text ++ rest).foldlM setRawHeader data =
      .ok (hs.foldl (fun data h => dataSet data (toLowerCase h.key) (trimmed h.value)) data) := by
  induction hs generalizing data with
  | nil =>
    induction rest with
    | nil => rfl
    | cons r rest ih =>
      obtain ⟨rfl, hblank⟩ := forall_mem_cons.mp hrest
      exact ih hblank
  | cons h hs ih =>
    rw [map_cons, cons_append, foldlM_cons, setRawHeader_header]
    exact ih _

theorem parseHeaders_swallowed (hs : List Header) :
    parseHeaders (swallowedText hs) = .ok (collected (hs.take 3),
      getHeaderValueParams ((dataGet (collected (hs.take 3)) (toLowerCase contentDisposition)).getD [])) := by
  unfold swallowedText
  split
  · rename_i hle
    rw [parseHeaders, splitLines_lines, foldlM_lines hs [] (by decide), take_of_length_le (by omega)]
    rfl
  · rw [parseHeaders, ← append_nil (linesText _), splitLines_lines, foldlM_lines _ [] (by decide)]
    rfl

theorem finish_swallowed (hs : List Header) (content : Bytes) :
    finish ⟨swallowedText hs, k, .content, fileStart, formData⟩ content =
      .ok ⟨[], 0, .delimiter, fileStart, formData ++ entryOf (collected (hs.take 3)) content⟩ := by
  simp only [finish, parseHeaders_swallowed, bind, Except.bind, entryOf, entryValue]
  generalize collected (hs.take 3) = data
  generalize getHeaderValueParams ((dataGet data (toLowerCase contentDisposition)).getD []) = params
  cases paramsGet params nameKey with
  | none => simp
  | some name =>
    by_cases hname : name = []
    · simp [hname]
    · simp only [if_neg hname]
      rcases paramsGet params filenameKey with _ | _ | ⟨c, filename⟩ <;> rfl

/-- The last `Content-Disposition` counts. -/
theorem dataGet_disposition (hs : List Header) (data : HeaderList) :
    dataGet (hs.foldl (fun data h => dataSet data (toLowerCase h.key) (trimmed h.value)) data) (toLowerCase contentDisposition) =
      ((hs.filter Header.isDisposition).map fun h => trimmed h.value).getLast?.or (dataGet data (toLowerCase contentDisposition)) := by
  induction hs generalizing data with
  | nil => rfl
  | cons h hs ih =>
    rw [foldl_cons, ih, dataGet_dataSet dispositionKey_ne_setCookie]
    by_cases hd : toLowerCase h.key = toLowerCase contentDisposition
    · have hpos : h.isDisposition = true := decide_eq_true hd
      rw [if_pos hd, filter_cons_of_pos hpos, map_cons, getLast?_cons]
      cases ((hs.filter Header.isDisposition).map fun h => trimmed h.value).getLast? <;> rfl
    · rw [if_neg hd, filter_cons_of_neg (by simpa [Header.isDisposition] using hd)]

theorem Part.dataGet_collected (p : Part) : dataGet (collected p.headers) (toLowerCase contentDisposition) = some p.disposition := by
  rw [collected, dataGet_disposition, p.only]
  rfl

theorem Part.headers_ne_nil (p : Part) : p.headers ≠ [] := by
  intro hnil
  have honly := p.only
  rw [hnil] at honly
  cases honly

variable {p : Part}

theorem Part.entries_eq (h : p.headers.length ≤ 2) :
    p.entries = [(p.name, entryValue (collected p.headers) (getHeaderValueParams p.disposition) p.content)] := by
  have htake : p.headers.take 3 = p.headers := take_of_length_le (by omega)
  simp only [Part.entries, entryOf, htake, left, if_pos h, p.dataGet_collected, Option.getD_some, p.named, if_neg p.nonempty]

theorem entryOf_length (data : HeaderList) (content : Bytes) : (entryOf data content).length ≤ 1 := by
  simp only [entryOf]
  split
  · exact Nat.zero_le 1
  · split
    · exact Nat.zero_le 1
    · exact le_rfl

/-! ## The whole body -/

theorem linesBytes_absent {pat rest : Bytes} (hcr : CR ∉ pat) (hlf : LF ∉ pat) (hne : pat ≠ []) (hlines : ∀ h ∈ hs, ¬pat <:+: h.line)
    (hrest : ¬pat <:+: rest) : ¬pat <:+: linesBytes hs ++ rest := by
  induction hs with
  | nil => exact hrest
  | cons h hs ih =>
    obtain ⟨hh, hhs⟩ := forall_mem_cons.mp hlines
    intro hin
    have hbytes : linesBytes (h :: hs) ++ rest = h.line ++ CR :: ([] ++ LF :: (linesBytes hs ++ rest)) := by simp [linesBytes_cons]
    rw [hbytes] at hin
    rcases infix_append_cons hcr hin with hin | hin
    · exact hh hin
    · rcases infix_append_cons hlf hin with hin | hin
      · exact hne (infix_nil.mp hin)
      · exact ih hhs hin

theorem left_absent (hb : Printable boundary) (h : WellFormed boundary p) :
    ¬Utf8.encode (dashes ++ boundary) <:+: left p.headers p.content := by
  unfold left
  split
  · exact h.content
  · have hne : Utf8.encode (dashes ++ boundary) ≠ [] := by
      rw [(dashes_printable hb).encode]
      simp [dashes]
    have hcr := (dashes_printable hb).cr
    have hlf := (dashes_printable hb).lf
    rw [append_assoc]
    refine linesBytes_absent hcr hlf hne (fun h' hh => h.headers h' (mem_of_mem_drop hh)) fun hin => ?_
    rcases infix_append_cons (a := []) hcr hin with hin | hin
    · exact hne (infix_nil.mp hin)
    · rcases infix_append_cons (a := []) hlf hin with hin | hin
      · exact hne (infix_nil.mp hin)
      · exact h.content hin

theorem step_outside (boundary : Text) (body : Bytes) (i : Nat) {p : Parser} (hp : p.state ≠ .content) :
    ∃ q, step boundary body i p = .ok q ∧ q.formData = p.formData ∧ q.boundaryIndex = p.boundaryIndex := by
  obtain ⟨text, k, state, fileStart, formData⟩ := p
  cases hbyte : body[i]? with
  | none => exact ⟨_, by simp only [step, hbyte], rfl, rfl⟩
  | some byte =>
    cases state with
    | content => exact absurd rfl hp
    | _ =>
      simp only [step, hbyte, ParseState.inHeaders, if_true, Bool.false_eq_true, if_false, Except.ok.injEq, exists_eq_left']
      split <;> exact ⟨rfl, rfl⟩

/-- What follows the last delimiter has no entries, whatever the parser takes it for. -/
theorem reads_epilogue (hb : Printable boundary) {p : Parser} {done : Bytes} (hp : p.state ≠ .content → p.boundaryIndex = 0)
    (hdone : (Utf8.encode boundary).take p.boundaryIndex <:+ done) (hno : ¬Utf8.encode boundary <:+: done ++ seg) :
    ∃ q, Reads boundary body i seg p q ∧ q.formData = p.formData := by
  induction seg generalizing i p done with
  | nil => exact ⟨p, Reads.nil, rfl⟩
  | cons x seg ih =>
    have hno' : ¬Utf8.encode boundary <:+: done ++ [x] ++ seg := by rwa [append_assoc, singleton_append]
    by_cases hst : p.state = .content
    · obtain ⟨text, k, state, fileStart, formData⟩ := p
      cases hst
      have hlt := matchNext_lt (a := x) hdone fun hin => hno' (hin.trans (prefix_append _ _).isInfix)
      rw [hb.encode_length] at hlt
      obtain ⟨q, hq, hform⟩ := ih (i := i + 1) (p := ⟨text, matchNext (Utf8.encode boundary) k x, .content, fileStart, formData⟩)
        (fun hne => absurd rfl hne) (matchNext_suffix hdone) hno'
      refine ⟨q, Reads.cons (fun hx => ?_) hq, hform⟩
      simp [step, hx, ParseState.inHeaders, Nat.not_le.mpr hlt]
    · obtain ⟨r, hr, hform, hindex⟩ := step_outside boundary body i hst
      rw [hp hst] at hindex
      have hnil : (Utf8.encode boundary).take r.boundaryIndex <:+ done ++ [x] := by
        rw [hindex]
        exact nil_suffix
      obtain ⟨q, hq, hform'⟩ := ih (i := i + 1) (fun _ => hindex) hnil hno'
      exact ⟨q, Reads.cons (fun _ => hr) hq, hform'.trans hform⟩

theorem padding_lf (p : Part) : LF ∉ p.padding := fun hm => by
  rcases p.blank LF hm with h | h <;> exact absurd h (by decide)

theorem reads_wholePart (hb : Printable boundary) (h : ¬Utf8.encode (dashes ++ boundary) <:+: left p.headers p.content) (hst : st = .preamble ∨ st = .delimiter) :
    ∃ fs, Reads (dashes ++ boundary) body i (p.bytes ++ [CR, LF] ++ Utf8.encode (dashes ++ boundary)) ⟨[], 0, st, fileStart, formData⟩
      ⟨[], 0, .delimiter, fs, formData ++ p.entries⟩ := by
  have hbytes : p.bytes ++ [CR, LF] ++ Utf8.encode (dashes ++ boundary) =
      p.padding ++ ([CR, LF] ++ (swallowed p.headers ++ (left p.headers p.content ++ [CR, LF] ++ Utf8.encode (dashes ++ boundary)))) := by
    rw [Part.bytes, ← swallowed_left]
    simp only [append_assoc]
  rw [hbytes]
  exact ⟨_, (reads_quiet (padding_lf p) hst).append ((reads_crlf_quiet hst).append ((reads_swallowed p.headers_ne_nil).append
    (reads_part (dashes_printable hb) (by simp [dashes]) h (finish_swallowed p.headers _))))⟩

variable {epilogue : Bytes} {parts : List Part}

theorem reads_afterDelimiter (hb : Printable boundary) (hepilogue : ¬Utf8.encode (dashes ++ boundary) <:+: epilogue)
    (h : ∀ p ∈ parts, ¬Utf8.encode (dashes ++ boundary) <:+: left p.headers p.content) (hst : st = .preamble ∨ st = .delimiter) :
    ∃ q, Reads (dashes ++ boundary) body i (afterDelimiter boundary epilogue parts) ⟨[], 0, st, fileStart, formData⟩ q ∧
      q.formData = formData ++ parts.flatMap Part.entries := by
  induction parts generalizing i fileStart formData st with
  | nil =>
    have hlf : LF ∉ Utf8.encode dashes := Printable.lf (printable_of_all rfl)
    obtain ⟨q, hq, hform⟩ : ∃ q, Reads (dashes ++ boundary) body (i + (Utf8.encode dashes).length) epilogue ⟨[], 0, st, fileStart, formData⟩ q ∧
        q.formData = formData :=
      reads_epilogue (dashes_printable hb) (fun _ => rfl) nil_suffix (show ¬Utf8.encode (dashes ++ boundary) <:+: [] ++ epilogue from hepilogue)
    exact ⟨q, (reads_quiet hlf hst).append hq, hform.trans (append_nil _).symm⟩
  | cons p parts ih =>
    obtain ⟨hp, hparts⟩ := forall_mem_cons.mp h
    let seg := p.bytes ++ [CR, LF] ++ Utf8.encode (dashes ++ boundary)
    obtain ⟨fs, hread⟩ : ∃ fs, Reads (dashes ++ boundary) body i seg ⟨[], 0, st, fileStart, formData⟩ ⟨[], 0, .delimiter, fs, formData ++ p.entries⟩ :=
      reads_wholePart hb hp hst
    obtain ⟨q, hq, hform⟩ : ∃ q, Reads (dashes ++ boundary) body (i + seg.length) (afterDelimiter boundary epilogue parts)
        ⟨[], 0, .delimiter, fs, formData ++ p.entries⟩ q ∧ q.formData = formData ++ p.entries ++ parts.flatMap Part.entries :=
      ih hparts (Or.inr rfl)
    refine ⟨q, hread.append hq, ?_⟩
    rw [hform, append_assoc, flatMap_cons]

theorem parse_body (hne : boundary ≠ []) (hb : Printable boundary)
    (h : ∀ p ∈ parts, ¬Utf8.encode (dashes ++ boundary) <:+: left p.headers p.content)
    (hepilogue : ¬Utf8.encode (dashes ++ boundary) <:+: epilogue) :
    parse (wholeBody boundary parts epilogue) boundary = .ok (parts.flatMap Part.entries) := by
  obtain ⟨q, hq, hform⟩ : ∃ q, Reads (dashes ++ boundary) (wholeBody boundary parts epilogue) (0 + (Utf8.encode (dashes ++ boundary)).length)
      (afterDelimiter boundary epilogue parts) ⟨[], 0, .preamble, 0, []⟩ q ∧ q.formData = parts.flatMap Part.entries :=
    reads_afterDelimiter hb hepilogue h (Or.inl rfl)
  have hread := (reads_quiet (dashes_printable hb).lf (Or.inl rfl)).append hq
  rw [parse, if_neg hne, show (wholeBody boundary parts epilogue).length = (Utf8.encode (dashes ++ boundary) ++ afterDelimiter boundary epilogue parts).length from rfl,
    hread (prefix_refl _)]
  exact congrArg Except.ok hform

/-! ## One entry for each part -/

/-- The value has these contents, or the text that they are. -/
def Holds (content : Bytes) : FormValue → Prop
  | .text value => value = Encoding.decodeText content
  | .file f => f.bytes = content

def Carries (p : Part) (e : Entry) : Prop := e.1 = p.name ∧ Holds p.content e.2

theorem entryValue_holds (data : HeaderList) (params : List (Text × Text)) (content : Bytes) : Holds content (entryValue data params content) := by
  unfold entryValue
  rcases paramsGet params filenameKey with _ | _ | ⟨c, filename⟩ <;> rfl

variable {content : Bytes}

theorem mem_entryOf {data : HeaderList} {e : Entry} (he : e ∈ entryOf data content) : Holds content e.2 := by
  simp only [entryOf] at he
  split at he
  · cases he
  · split at he
    · cases he
    · rw [mem_singleton.mp he]
      exact entryValue_holds _ _ _

variable {α β : Type} {f : α → List β} {l : List α}

theorem flatMap_length_le (hf : ∀ a ∈ l, (f a).length ≤ 1) : (l.flatMap f).length ≤ l.length := by
  induction l with
  | nil => exact le_rfl
  | cons a l ih =>
    obtain ⟨ha, hl⟩ := forall_mem_cons.mp hf
    rw [flatMap_cons, length_append, length_cons, Nat.add_comm]
    exact Nat.add_le_add (ih hl) ha

theorem forall₂_flatMap_iff {R : α → β → Prop} (hf : ∀ a ∈ l, (f a).length ≤ 1) :
    List.Forall₂ R l (l.flatMap f) ↔ ∀ a ∈ l, ∃ b, f a = [b] ∧ R a b := by
  induction l with
  | nil => simp
  | cons a l ih =>
    obtain ⟨ha, hl⟩ := forall_mem_cons.mp hf
    rw [flatMap_cons, forall_mem_cons]
    match hfa : f a with
    | [] =>
      refine iff_of_false (fun hall => ?_) (by simp)
      have hlen := hall.length_eq
      have hle := flatMap_length_le hl
      rw [length_cons, nil_append] at hlen
      omega
    | [b] => simp [forall₂_cons, ih hl]
    | b :: b' :: rest =>
      rw [hfa] at ha
      simp at ha

theorem withoutMark_length (t : Text) : (Encoding.withoutMark t).length ≤ t.length ∧ t.length ≤ (Encoding.withoutMark t).length + 1 := by
  cases t with
  | nil => simp [Encoding.withoutMark]
  | cons c t =>
    rw [Encoding.withoutMark]
    split <;> simp

theorem decodeText_longer (lines content : Bytes) : Encoding.decodeText (lines ++ [CR, LF] ++ content) ≠ Encoding.decodeText content := by
  intro he
  have hdecode : Utf8.decode (lines ++ [CR, LF] ++ content) = Utf8.decode lines ++ '\r' :: (Utf8.decode [] ++ '\n' :: Utf8.decode content) := by
    rw [append_assoc]
    show Utf8.decode (lines ++ CR :: ([] ++ LF :: content)) = _
    rw [Utf8.decode_append_cons lines (by decide), Utf8.decode_append_cons [] (by decide)]
    rfl
  have hlen := congrArg List.length he
  have hlong := (withoutMark_length (Utf8.decode (lines ++ [CR, LF] ++ content))).2
  have hshort := (withoutMark_length (Utf8.decode content)).1
  rw [hdecode] at hlong
  simp only [Encoding.decodeText, hdecode, length_append, length_cons] at hlen hlong
  omega

theorem not_holds_longer {lines : Bytes} {v : FormValue} (h : Holds (lines ++ [CR, LF] ++ content) v) : ¬Holds content v := by
  intro h'
  cases v with
  | text value => exact decodeText_longer lines content (h.symm.trans h')
  | file f =>
    have hlen := congrArg List.length (h.symm.trans h')
    simp only [length_append, length_cons] at hlen
    omega

theorem carried_iff (p : Part) : (∃ e, p.entries = [e] ∧ Carries p e) ↔ p.headers.length ≤ 2 := by
  constructor
  · rintro ⟨e, he, -, hcontent⟩
    by_contra hlen
    have hmem : e ∈ p.entries := he ▸ mem_singleton_self e
    have hleft := mem_entryOf hmem
    rw [left, if_neg hlen] at hleft
    exact not_holds_longer hleft hcontent
  · intro hlen
    exact ⟨_, Part.entries_eq hlen, rfl, entryValue_holds _ _ _⟩

/-- There is one entry for each part exactly if none has a third header. -/
theorem parts_iff (boundary : Text) (hne : boundary ≠ []) (hb : Printable boundary) (parts : List Part) (epilogue : Bytes)
    (h : ∀ p ∈ parts, WellFormed boundary p) (hepilogue : ¬Utf8.encode (dashes ++ boundary) <:+: epilogue) :
    (∃ entries, parse (wholeBody boundary parts epilogue) boundary = .ok entries ∧ List.Forall₂ Carries parts entries) ↔
      ∀ p ∈ parts, p.headers.length ≤ 2 := by
  rw [parse_body hne hb (fun p hp => left_absent hb (h p hp)) hepilogue]
  have heach := forall₂_flatMap_iff (R := Carries) (f := Part.entries) (l := parts) fun p _ => entryOf_length _ _
  simp only [carried_iff] at heach
  simp only [Except.ok.injEq, exists_eq_left', heach]

theorem oneByte_of_all (h : t.all (fun c => decide (c.toNat < 256)) = true) : ∀ c ∈ t, c.toNat < 256 := fun c hc =>
  of_decide_eq_true (all_eq_true.mp h c hc)

def typeHeader : Header := ⟨"content-type".toList, " text/plain".toList, rfl, rfl, oneByte_of_all rfl, by decide +kernel⟩

def dispositionHeader : Header := ⟨contentDisposition, " form-data; name=\"a\"".toList, rfl, rfl, oneByte_of_all rfl, by decide +kernel⟩

def idHeader : Header := ⟨"X-Id".toList, "é".toList, rfl, rfl, oneByte_of_all rfl, by decide +kernel⟩

theorem typeHeader_other : typeHeader.isDisposition = false := rfl

theorem dispositionHeader_is : dispositionHeader.isDisposition = true := rfl

theorem idHeader_other : idHeader.isDisposition = false := rfl

theorem dispositionHeader_value : trimmed dispositionHeader.value = "form-data; name=\"a\"".toList := rfl

theorem onlyDisposition (rest : List Header) (h : ∀ x ∈ rest, x.isDisposition = false) :
    ((typeHeader :: dispositionHeader :: rest).filter Header.isDisposition).map (fun h => trimmed h.value) = ["form-data; name=\"a\"".toList] := by
  have hrest : rest.filter Header.isDisposition = [] := filter_eq_nil_iff.mpr fun x hx => by simp [h x hx]
  rw [filter_cons_of_neg (by simp [typeHeader_other]), filter_cons_of_pos dispositionHeader_is, hrest, map_singleton,
    dispositionHeader_value]

def samplePart : Part where
  padding := [0x20]
  headers := [typeHeader, dispositionHeader]
  content := [0x2d, 0x2d, 0x2d]
  disposition := "form-data; name=\"a\"".toList
  name := ['a']
  blank := (by simp)
  only := onlyDisposition [] (by simp)
  named := by decide +kernel
  nonempty := cons_ne_nil _ _

def threeHeaders : Part where
  padding := []
  headers := [typeHeader, dispositionHeader, idHeader]
  content := [0x68, 0x69]
  disposition := "form-data; name=\"a\"".toList
  name := ['a']
  blank := (by simp)
  only := onlyDisposition [idHeader] (by simp [idHeader_other])
  named := by decide +kernel
  nonempty := cons_ne_nil _ _

theorem samplePart_wellFormed : WellFormed sampleBoundary samplePart := ⟨by decide +kernel, by decide +kernel⟩

theorem threeHeaders_wellFormed : WellFormed sampleBoundary threeHeaders := ⟨by decide +kernel, by decide +kernel⟩

theorem two_headers :
    ∃ entries, parse (wholeBody sampleBoundary [samplePart, samplePart] [13, 10, 45, 45]) sampleBoundary = .ok entries ∧
      List.Forall₂ Carries [samplePart, samplePart] entries :=
  (parts_iff sampleBoundary (cons_ne_nil _ _) (printable_of_all rfl) [samplePart, samplePart] [13, 10, 45, 45]
    (by simpa using samplePart_wellFormed) (by decide +kernel)).mpr (by decide)

/-- The empty line after the third header is taken for contents. -/
theorem three_headers :
    parse (wholeBody sampleBoundary [threeHeaders] []) sampleBoundary = .ok [(['a'], .text ['\r', '\n', 'h', 'i'])] ∧
      ¬∃ entries, parse (wholeBody sampleBoundary [threeHeaders] []) sampleBoundary = .ok entries ∧ List.Forall₂ Carries [threeHeaders] entries := by
  have hparse : parse (wholeBody sampleBoundary [threeHeaders] []) sampleBoundary = .ok [(['a'], .text ['\r', '\n', 'h', 'i'])] := by
    rw [parse_body (show sampleBoundary ≠ [] from cons_ne_nil _ _) (printable_of_all rfl)
      (by simpa using left_absent (printable_of_all rfl) threeHeaders_wellFormed) (by decide +kernel)]
    decide +kernel
  refine ⟨hparse, ?_⟩
  rintro ⟨entries, he, hall⟩
  rw [hparse, Except.ok.injEq] at he
  subst he
  obtain ⟨-, hcontent⟩ := (forall₂_cons.mp hall).1
  exact absurd (congrArg List.length hcontent) (by decide +kernel)

end Aworker.Fetch.Multipart
